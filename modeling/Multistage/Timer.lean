import Multistage.Arrangement
import Multistage.Text.Table

/-!
# Timers and clocks

A timer accumulates, for named sections of a run, the time spent in them and how often they were
left. Sections may be nested. The time comes from a clock, whose readings are data, a function of
how often it was read before.

## Main definitions

- `Clock`, `Clock.read`: a clock and its next reading.
- `OpenSection`, `Timer`: the sections in the order in which they were first left, and those that
  are open.
- `Timer.enter`, `Timer.leave`: the beginning and the end of a section.
- `Timer.summary`: the sections as a table, the longest first.
-/

namespace Multistage

/-- A clock, given by its readings in order. -/
structure Clock (β : Type) where
  reading : Nat → β
  /-- How often the clock was read. -/
  reads : Nat

namespace Clock

variable {β : Type}

/-- A clock that was never read. -/
def ofReadings (reading : Nat → β) : Clock β := ⟨reading, 0⟩

/-- The next reading, and the clock after it. -/
def read (c : Clock β) : β × Clock β := (c.reading c.reads, { c with reads := c.reads + 1 })

end Clock

/-- The time spent in a section and the number of times it was left. -/
structure Section (α : Type) where
  total : α
  calls : Nat

/-- A section that was entered and not left. -/
structure OpenSection (α : Type) where
  name : Name
  /-- The time of entry, unless it could not be read. -/
  start? : Option (Datum α)

/-- The sections of a run in the order in which they were first left. -/
structure Timer (α : Type) where
  sections : Dict Name (Section α)
  /-- The sections that were entered and not left, the innermost first. -/
  running : List (OpenSection α)

namespace Timer

variable {α : Type} [Scalar α]

/-- The timer without sections. -/
def empty : Timer α := ⟨Dict.empty, []⟩

/-- Forget what was accumulated; open sections stay open. -/
def reset (t : Timer α) : Timer α := { t with sections := Dict.empty }

/-- What is accumulated for a section. -/
def accumulated (t : Timer α) (name : Name) : Section α := t.sections.getD name ⟨0, 0⟩

/-- Change what is accumulated for a section. -/
def update (t : Timer α) (name : Name) (change : Section α → Section α) : Timer α :=
  { t with sections := t.sections.insert name (change (t.accumulated name)) }

/-- Enter a section at a time. The section is open even if the time could not be read. -/
def enter (name : Name) (time : Except (Failure α) (Datum α)) : Action α (Timer α) Unit := do
  modify fun t => { t with running := ⟨name, time.toOption⟩ :: t.running }
  discard (Action.ofExcept time)

/-- Leave the innermost open section at a time, unless the reading of the time failed. Nothing
happens if the section has no time of entry. Otherwise the section is known from then on, but a call
whose time is no scalar does not count. -/
def leave (time : Except (Failure α) (Datum α)) : Action α (Timer α) Unit := do
  match (← get).running with
  | [] => throw .indexOutOfRange
  | ⟨name, start?⟩ :: outer =>
    modify fun t => { t with running := outer }
    match start? with
    | none => pure ()
    | some start =>
      if !name.isKey then throw .wrongKind
      modify fun t => t.update name id
      let elapsed ← Action.ofExcept do (← (← time).sub start).asNumber
      modify fun t => t.update name fun s => ⟨s.total + elapsed, s.calls + 1⟩

/-- Whether leaving the innermost open section takes the time. -/
def timesLeaving (t : Timer α) : Bool :=
  t.running.head?.any fun s => s.start?.isSome && s.name.isKey

/-- The sections with their times, the longest first. -/
def byTotal (t : Timer α) : List (Name × Section α) :=
  arrange (fun a b => decide (-a.2.total < -b.2.total)) t.sections.entries

/-- The text of a timer. -/
def shown (t : Timer Float) : String :=
  "Timer(sections=" ++ Text.bracketed (t.sections.keys.map Datum.written) ++ ")"

/-- The line of a table of sections. -/
def summaryLine (width : Int) (name total calls each : String) : String :=
  " | ".intercalate [Text.alignLeft width name, Text.alignRight 10 total, Text.alignRight 8 calls,
    Text.alignRight 12 each]

/-- The table of the sections, whose names must be texts: total time, number of calls and time per
call. -/
def summary (t : Timer Float) : Except (Failure Float) (List String) := do
  if !t.sections.keys.all (· matches .text _) then .error .wrongKind else
  let width : Int := if t.sections.isEmpty then 7
    else t.sections.keys.foldl (fun w name => max w name.shown.length) 0
  let heading := summaryLine width "section" "total (s)" "calls" "per call (s)"
  return [heading, Text.rule heading '-'] ++ t.byTotal.map fun (name, s) =>
    summaryLine width name.shown (fixedText 4 s.total) (toString s.calls)
      (fixedText 6 (s.total / Scalar.ofNat (max s.calls 1)))

end Timer

end Multistage
