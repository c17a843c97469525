import Multistage.Datum.Arithmetic

/-!
# Policy graphs

A graph has a distinguished root, for every node the list of its children with transition
probabilities, and possibly a belief partition, a list of blocks of nodes that an observer cannot
tell apart. A walk that reaches a node stops with the probability that its children lack to one.

## Main definitions

- `Graph`: a directed graph with weighted edges and a root.
- `Graph.addNode`, `Graph.addEdge`, `Graph.addBlock`: the ways in which a graph grows; one that
  fails leaves the graph as it was.
- `Graph.validate`: the checks that a graph has to pass before it is given subproblems.
- `Graph.ofEdges`, `Graph.linear`: a graph from its edges, and a chain.

## Design notes

Nodes are found by their keys, so that every operation that looks a node up fails for a datum that
cannot be one. Whether a list of nodes holds a node is decided by equality alone. A node is compared
with the root by `Datum.equals`, so that a root that is not-a-number is never recognised: edges may
enter it, and it is one of the nodes that get a stage.
-/

namespace Multistage

/-- By how much probabilities may exceed one in total. -/
def probabilityTolerance {α : Type} [Scalar α] : α := Scalar.ofRat (mkRat 1 1000000000)

/-- A directed graph with weighted edges and a root. -/
structure Graph (α : Type) where
  root : Datum α
  /-- The children of every node, in the order in which nodes and edges were added. -/
  nodes : Dict (Datum α) (List (Datum α × α))
  /-- The blocks of the belief partition. -/
  partition : List (List (Datum α))

namespace Graph

variable {α : Type} [Scalar α]

/-- The graph that is a root. -/
def ofRoot (root : Datum α) : Except (Failure α) (Graph α) := do
  root.requireKey
  return ⟨root, ⟨[(root, [])]⟩, []⟩

/-- Add a node without children. -/
def addNode (g : Graph α) (node : Datum α) : Except (Failure α) (Graph α) := do
  node.requireKey
  if g.nodes.contains node || node.equals g.root then .error (.duplicateNode node)
  else return { g with nodes := g.nodes.insert node [] }

/-- Add an edge between nodes that exist; no edge enters the root. The probability is read last. -/
def addEdge (g : Graph α) (parent child probability : Datum α) :
    Except (Failure α) (Graph α) := do
  parent.requireKey
  if !g.nodes.contains parent then .error (.missingNode parent)
  else if child.equals g.root then .error .edgeIntoRoot
  else
    child.requireKey
    if !g.nodes.contains child then .error (.missingNode child)
    else
      let p ← probability.toScalar
      return { g with nodes := g.nodes.modify parent (· ++ [(child, p)]) }

/-- Add a block to the belief partition. -/
def addBlock (g : Graph α) (block : List (Datum α)) : Graph α :=
  { g with partition := g.partition ++ [block] }

/-- The children of a node. -/
def children (g : Graph α) (node : Datum α) : Except (Failure α) (List (Datum α × α)) := do
  node.requireKey
  (g.nodes.get? node).elim (.error (.missingNode node)) .ok

/-- The number of nodes, the root included. -/
def size (g : Graph α) : Nat := g.nodes.size

/-- The number of edges. -/
def edgeCount (g : Graph α) : Nat := g.nodes.values.flatten.length

/-- The nodes other than the root. -/
def inner (g : Graph α) : List (Datum α) := g.nodes.keys.filter (· != g.root)

/-- The nodes that do not compare as equal to the root. -/
def staged (g : Graph α) : List (Datum α) := g.nodes.keys.filter (!·.equals g.root)

/-- The probabilities on the edges that leave a node are non-negative and sum to at most one. -/
def validateEdges (node : Datum α) (children : List (Datum α × α)) : Except (Failure α) Unit :=
  if children.isEmpty then .ok () else
  let sum := Scalar.sum (children.map (·.2))
  if !(0 ≤ sum && sum ≤ 1 + probabilityTolerance) then .error (.edgeSum node sum)
  else if children.any (·.2 < 0) then .error (.negativeEdge node)
  else .ok ()

/-- A list without two equal members. -/
def distinct (members : List (Datum α)) : Bool :=
  match members with
  | [] => true
  | d :: rest => !rest.contains d && distinct rest

/-- The belief partition is empty, or it is a disjoint cover of the nodes other than the root. -/
def validatePartition (g : Graph α) : Except (Failure α) Unit :=
  if g.partition.isEmpty then .ok () else
  let members := g.partition.flatten
  if members.contains g.root then .error (.rootInPartition g.partition g.root)
  else if !Datum.areKeys members then .error .wrongKind
  else if !distinct members then .error (.overlappingPartition g.partition)
  else if members.all g.inner.contains && g.inner.all members.contains then .ok ()
  else .error (.incompletePartition g.partition)

/-- Check the edges of the nodes in order, then the belief partition. -/
def validate (g : Graph α) : Except (Failure α) Unit := do
  g.nodes.entries.forM fun e => validateEdges e.1 e.2
  g.validatePartition

/-- The graph of a root, further nodes, edges and blocks, added in this order. -/
def ofEdges (root : Datum α) (nodes : List (Datum α))
    (edges : List (Datum α × Datum α × Datum α)) (partition : List (List (Datum α))) :
    Except (Failure α) (Graph α) := do
  let g ← nodes.foldlM addNode (← ofRoot root)
  let g ← edges.foldlM (fun g e => g.addEdge e.1 e.2.1 e.2.2) g
  return partition.foldl addBlock g

/-- The chain `0 → 1 → ⋯ → stages` with root `0`; it has no stages if their number is negative. -/
def linear (stages : Int) : Except (Failure α) (Graph α) :=
  let stage (n : Nat) : Datum α := .int n
  let steps := List.range stages.toNat
  ofEdges (stage 0) (steps.map fun n => stage (n + 1))
    (steps.map fun n => (stage n, stage (n + 1), .real 1)) []

/-- The text of a graph. -/
def shown (g : Graph Float) : String :=
  "Graph(root_node=" ++ g.root.written ++ ", nodes=" ++ toString (g.size - 1) ++
    ", edges=" ++ toString g.edgeCount ++ ", partitions=" ++ toString g.partition.length ++ ")"

end Graph

end Multistage
