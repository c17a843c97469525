import Multistage.Stopping
import Multistage.Text.Table
import Multistage.Timer

/-!
# The journal of a training run

A run reports what happens as events. Every event has lines of text, and a level that says whether
it is a failure.

## Main definitions

- `Event`: what is reported.
- `Event.lines`: the lines of an event.
- `Level`, `Event.level`: how grave an event is.
-/

namespace Multistage

/-- What is reported of a run. -/
inductive Event (α : Type) where
  /-- The run begins, on a model with a number of nodes. -/
  | started (nodes : Nat)
  /-- The headings of the rows to come. -/
  | headings
  | iteration (record : LogRecord α)
  /-- A node could not be solved. -/
  | failed (cause : Failure α)
  | times (timer : Timer α)
  | ended (status : String) (iterations : Nat)

/-- How grave an event is. -/
inductive Level where
  | info
  | error

/-- The word for a level. -/
def Level.word : Level → String
  | info => "INFO"
  | error => "ERROR"

namespace Event

/-- The level of an event. -/
def level {α : Type} : Event α → Level
  | failed _ => .error
  | _ => .info

/-- The lines of a table that may not fit. -/
def linesOf (lines : Except (Failure Float) (List String)) : List String :=
  match lines with
  | .ok lines => lines
  | .error e => e.message?.toList

/-- The lines of an event. -/
def lines : Event Float → List String
  | started nodes => ["SDDP training of a policy graph with " ++ toString nodes ++ " nodes"]
  | headings => linesOf (Text.logHeader .null)
  | iteration r => linesOf do
      return [← Text.logRow r.iteration r.bound r.simulation r.time .null]
  | failed cause => (cause.message?.getD "").splitOn "\n"
  | times timer => "Time spent per section:" :: linesOf timer.summary
  | ended status iterations => ["Training terminated with status " ++ Text.quoted status ++
      " after " ++ toString iterations ++ " iterations"]

/-- The lines of an event, each with the word for its level in front. -/
def marked (e : Event Float) : List String := e.lines.map fun line => e.level.word ++ " " ++ line

end Event

end Multistage
