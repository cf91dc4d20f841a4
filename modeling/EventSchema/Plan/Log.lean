import EventSchema.Plan.Basic

/-!
# Logs

A log holds the outcome of every operation that was run, by phase and target.
-/

namespace EventSchema

/-- An operation that was run, and what came of it. -/
structure LogEntry where
  operation : Operation
  outcome : Outcome

/-- The outcomes of one phase by target. -/
structure PhaseLog where
  phase : Phase
  entries : LocationMap (List LogEntry) := ∅

namespace PhaseLog

/-- The entries of a target, in the order in which they were recorded. -/
def get (log : PhaseLog) (l : Location) : List LogEntry := log.entries[l]?.getD []

/-- Add an entry behind those with the same target. -/
def record (log : PhaseLog) (entry : LogEntry) : PhaseLog :=
  let l := entry.operation.target
  { log with entries := log.entries.insert l (log.get l ++ [entry]) }

theorem get_record (log : PhaseLog) (entry : LogEntry) (l : Location) :
    (log.record entry).get l =
      if entry.operation.target = l then log.get l ++ [entry] else log.get l := by
  unfold record
  by_cases h : entry.operation.target = l
  · subst h
    simp [get]
  · simp [get, Std.ExtTreeMap.getElem?_insert, h]

/-- All entries, by target. -/
def all (log : PhaseLog) : List LogEntry := log.entries.values.flatten

end PhaseLog

/-- How many operations had which outcome. -/
structure Statistics where
  applied : Nat := 0
  unchanged : Nat := 0
  failed : Nat := 0
deriving DecidableEq, Repr

/-- One more outcome. -/
def Statistics.count (s : Statistics) : Outcome → Statistics
  | .applied _ _ => { s with applied := s.applied + 1 }
  | .unchanged => { s with unchanged := s.unchanged + 1 }
  | .failed _ => { s with failed := s.failed + 1 }

/-- The outcomes of all phases. -/
structure Log where
  phases : List PhaseLog := []

namespace Log

/-- The log of one phase. -/
def phase? (log : Log) (phase : Phase) : Option PhaseLog := log.phases.find? (·.phase == phase)

/-- All entries, by phase and target. -/
def entries (log : Log) : List LogEntry := log.phases.flatMap PhaseLog.all

/-- The entries of a target, phase by phase. -/
def entriesFor (log : Log) (l : Location) : List LogEntry := log.phases.flatMap (·.get l)

/-- The entries of operations that failed. -/
def failures (log : Log) : List LogEntry := log.entries.filter (·.outcome.isFailed)

/-- How many operations had which outcome. -/
def statistics (log : Log) : Statistics :=
  log.entries.foldl (fun s entry => s.count entry.outcome) {}

/-- What failed and why, one text for each failed operation. -/
def failureTexts (log : Log) : List String :=
  log.entries.filterMap fun entry =>
    entry.outcome.cause?.map fun cause => entry.operation.text ++ ": " ++ cause.reason

end Log

end EventSchema
