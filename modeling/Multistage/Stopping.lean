import Multistage.Datum.Arithmetic

/-!
# Stopping rules

A run of training keeps a log with one record per iteration. A stopping rule reads the log and
decides whether training ends; the first rule that does gives the run its status.

## Main definitions

- `LogRecord`: what is logged of an iteration.
- `StoppingRule`: limits on iterations and time, a bound that no longer moves, and custom rules.
- `StoppingRule.converged`: the decision of a rule.
- `firstConverged`: the decision of a list of rules.
-/

namespace Multistage

/-- The record of an iteration. -/
structure LogRecord (α : Type) where
  iteration : Datum α
  bound : Datum α
  simulation : Datum α
  /-- The time since the start, an integer if the clock counts in integers. -/
  time : Datum α

/-- A stopping rule. -/
inductive StoppingRule (α : Type) where
  /-- The last iteration has reached a number. -/
  | iterations (limit : Int)
  /-- The time of the last iteration has reached a limit. -/
  | time (limit : α)
  /-- The bound moved by at most `tolerance` in each of the last `count` iterations. -/
  | stalling (count : Int) (tolerance : α)
  /-- Any other test of the log; it may ask to stop at once by failing. -/
  | custom (status : String) (test : List (LogRecord α) → Except (Failure α) Bool)

namespace StoppingRule

variable {α : Type} [Scalar α]

/-- The rule of a limit on the iterations, which is at least one. -/
def iterations? (limit : Datum α) : Except (Failure α) (StoppingRule α) := do
  if ← limit.less (.int 1) then .error (.ruleIterations limit)
  else return iterations (← limit.truncated)

/-- The rule of a limit on the time, which is positive. -/
def time? (limit : Datum α) : Except (Failure α) (StoppingRule α) := do
  if ← limit.atMost (.int 0) then .error (.ruleTime limit) else return time (← limit.asNumber)

/-- The rule of a stalling bound, for at least one iteration and a tolerance not below zero. -/
def stalling? (count tolerance : Datum α) : Except (Failure α) (StoppingRule α) := do
  if ← count.less (.int 1) then .error .ruleStallingCount else
  if ← tolerance.less (.int 0) then .error .ruleStallingTolerance else
  return stalling (← count.truncated) (← tolerance.asNumber)

/-- The status of a run that the rule ends. -/
def status : StoppingRule α → String
  | iterations _ => "iteration_limit"
  | time _ => "time_limit"
  | stalling _ _ => "bound_stalling"
  | custom status _ => status

/-- The bound of every record moved by at most the tolerance to the next. -/
def steady (tolerance : α) : List (LogRecord α) → Except (Failure α) Bool
  | a :: b :: rest => do
    if ← (← (← b.bound.sub a.bound).abs).atMost (.real tolerance) then
      steady tolerance (b :: rest)
    else return false
  | _ => .ok true

/-- The rule ends training after the log. -/
def converged (rule : StoppingRule α) (log : List (LogRecord α)) : Except (Failure α) Bool :=
  match rule with
  | iterations limit => log.getLast?.elim (.ok false) fun r => Datum.atMost (.int limit) r.iteration
  | time limit => log.getLast?.elim (.ok false) fun r => Datum.atMost (.real limit) r.time
  | stalling count tolerance =>
    if (log.length : Int) < count + 1 then .ok false
    else steady tolerance (log.drop (log.length - (count + 1).toNat))
  | custom _ test => test log

/-- The text of a rule; a custom rule is known by its status. -/
def shown : StoppingRule Float → String
  | iterations limit => "IterationLimit(" ++ toString limit ++ ")"
  | time limit => "TimeLimit(" ++ shortestText limit ++ ")"
  | stalling count tolerance =>
    "BoundStalling(" ++ toString count ++ ", " ++ shortestText tolerance ++ ")"
  | custom status _ => status

end StoppingRule

/-- The status of the first rule that ends training after the log, if one does. -/
def firstConverged {α : Type} [Scalar α] (log : List (LogRecord α)) :
    List (StoppingRule α) → Except (Failure α) (Option String)
  | [] => .ok none
  | rule :: rest => do
    if ← rule.converged log then return some rule.status else firstConverged log rest

/-- The status of a run that no rule has ended. -/
def unsolvedStatus : String := "not_solved"

end Multistage
