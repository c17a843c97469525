import Multistage.Linear.Simplex
import Multistage.Linear.Workspace
import Multistage.Graph.Markovian
import Multistage.Simulation
import Multistage.Training
import Multistage.Proofs.Cut.LevelOne
import Multistage.Proofs.Node.Pruning
import Multistage.Proofs.Training.Similar
import Multistage.Proofs.Linear.Duality
import Multistage.Proofs.Linear.Expression
import Multistage.Proofs.Linear.Sensitivity
import Multistage.Proofs.Risk.Adjustment
import Multistage.Proofs.Risk.Coherent
import Multistage.Proofs.Risk.Value
import Multistage.Proofs.Stage.Assignment
import Multistage.Proofs.Stage.Tidy
import Multistage.Proofs.Belief.Posterior
import Multistage.Proofs.Linear.Relating
import Multistage.Proofs.Node.Blank
import Multistage.Proofs.Node.CutConstraint
import Multistage.Proofs.Cut.Recording
import Multistage.Proofs.Lists
import Multistage.Proofs.Node.Used
import Multistage.Proofs.Node.NewCut
import Multistage.Proofs.Node.Solve
import Multistage.Proofs.Node.Installation
import Multistage.Proofs.Linear.Certified
import Multistage.Proofs.Linear.Optimum
import Multistage.Proofs.Node.Backing
import Multistage.Proofs.Node.Operating
import Multistage.Proofs.Node.Tolerance
import Multistage.Proofs.Model.Throughout
import Multistage.Proofs.Node.Monotone
import Multistage.Proofs.Session.Monotone
import Multistage.Proofs.Training.Monotone
import Multistage.Proofs.Node.Below
import Multistage.Proofs.Session.Below
import Multistage.Proofs.Training.Validity
import Multistage.Proofs.Model.Distribution
import Multistage.Proofs.Linear.Calls
import Multistage.Proofs.Training.Residual
import Multistage.Proofs.Cut.Mirror
import Multistage.Proofs.Linear.Mirror
import Multistage.Proofs.Linear.Mirrored
import Multistage.Proofs.Model.Mirror
import Multistage.Proofs.Session.Mirror
import Multistage.Proofs.Training.Mirror
import Multistage.Proofs.Training.Passes
import Multistage.Proofs.Training.Rounds
import Multistage.Proofs.Stage.Declaring
import Multistage.Proofs.Stage.Opposite
import Multistage.Proofs.Model.Opposite
import Multistage.Proofs.Training.Opposite
import Multistage.Proofs.Node.Current
import Multistage.Proofs.Stage.Failing
import Multistage.Proofs.Linear.Aligned
import Multistage.Proofs.Linear.Isolated
import Multistage.Proofs.Training.Course
import Multistage.Proofs.Training.Protocol
import Multistage.Proofs.Training.Resuming
import Multistage.Proofs.Node.Independence
import Multistage.Proofs.Training.Observing
import Multistage.Proofs.Graph.Children
import Multistage.Proofs.Sampling.Drawing
import Multistage.Proofs.Sampling.Walk
import Multistage.Proofs.Training.Starting
import Multistage.Proofs.Training.Arriving
import Multistage.Proofs.Session.Echoing
import Multistage.Proofs.Training.Passages
import Multistage.Proofs.Training.Separated
import Multistage.Proofs.Training.Simulating
import Multistage.Proofs.Risk.Mass
import Multistage.Proofs.Risk.Laws
import Multistage.Proofs.Risk.Optimality
import Multistage.Proofs.Belief.Transition
import Multistage.Proofs.Belief.Update
import Multistage.Proofs.Belief.Filter
import Multistage.Proofs.Risk.Levels
import Multistage.Proofs.Risk.Writing
import Multistage.Proofs.Risk.Algebra
import Multistage.Proofs.Linear.Subgradient
import Multistage.Proofs.Node.Projection
import Multistage.Proofs.Node.Envelope
import Multistage.Proofs.Session.Envelope
import Multistage.Proofs.Settles
import Multistage.Proofs.Node.Reordering
import Multistage.Proofs.Node.Agreeing
import Multistage.Proofs.Session.Settling
import Multistage.Proofs.Training.BackwardStep
import Multistage.Proofs.Training.Reordering
import Multistage.Proofs.Keys
import Multistage.Proofs.Scalar.Ordered
import Multistage.Proofs.Scalar.Rounding
import Multistage.Proofs.Scalar.Unpacked
import Multistage.Proofs.Scalar.Binary64
import Multistage.Proofs.Graph.Edges
import Multistage.Proofs.Graph.Validity
import Multistage.Proofs.Graph.Markovian
import Multistage.Proofs.Graph.Substochastic
import Multistage.Proofs.Linear.Arithmetic
import Multistage.Proofs.Text.Row
import Multistage.Proofs.Text.Whole
import Multistage.Proofs.Text.CellWidth
import Multistage.Proofs.Text.Listing
import Multistage.Proofs.Model.Table
