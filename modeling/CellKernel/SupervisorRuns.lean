import Mathlib.Data.List.Infix
import CellKernel.Supervisor

/-
Runs of observe from new(). The log is the array and length of the source under
the bounds checks that Rust puts at records[self.len] and records[..self.len];
the supervisor that carries its bound computes the same and never meets one.
-/
namespace CellSupervisor
open CellCore

variable {CAP : Nat}

inductive LogPanic where
  | indexOutOfBounds
  deriving DecidableEq, Repr

structure RawSupervisor (CAP : Nat) where
  records : Vector (Option FailureRecord) CAP
  len : Nat

def RawSupervisor.new : RawSupervisor CAP := ⟨Vector.replicate CAP none, 0⟩

def RawSupervisor.store (self : RawSupervisor CAP) (index : Nat) (record : FailureRecord) :
    Except LogPanic (RawSupervisor CAP) :=
  if inside : index < CAP then .ok ⟨self.records.set index (some record), self.len⟩
  else .error .indexOutOfBounds

def RawSupervisor.observe (self : RawSupervisor CAP) :
    WorkResult → Except LogPanic (Option FailureRecord × RawSupervisor CAP)
  | .Completed _ => .ok (none, self)
  | .Failed context nodeId reason =>
      let record : FailureRecord := ⟨context, nodeId, reason⟩
      if self.len < CAP then do
        let stored ← self.store self.len record
        return (some record, ⟨stored.records, stored.len + 1⟩)
      else .ok (some record, self)

def RawSupervisor.findTrace (self : RawSupervisor CAP) (traceId : UInt64) :
    Except LogPanic (Option FailureRecord) :=
  if self.len ≤ CAP then
    .ok (((self.records.toList.take self.len).filterMap id).find? fun record =>
      record.context.traceId == traceId)
  else .error .indexOutOfBounds

def RawSupervisor.observeAll (self : RawSupervisor CAP) :
    List WorkResult → Except LogPanic (RawSupervisor CAP)
  | [] => .ok self
  | result :: results => do
      let (_, next) ← self.observe result
      next.observeAll results

def Supervisor.raw (self : Supervisor CAP) : RawSupervisor CAP := ⟨self.records, self.len⟩

def Supervisor.observeAll (self : Supervisor CAP) : List WorkResult → Supervisor CAP
  | [] => self
  | result :: results => (self.observe result).2.observeAll results

/-- What the calls of observe returned with Some, in order. -/
def Supervisor.acknowledged (self : Supervisor CAP) : List WorkResult → List FailureRecord
  | [] => []
  | result :: results =>
      (self.observe result).1.toList ++ (self.observe result).2.acknowledged results

def failuresOf (results : List WorkResult) : List FailureRecord := results.filterMap recordOf

theorem raw_observe (self : Supervisor CAP) (result : WorkResult) :
    self.raw.observe result = .ok ((self.observe result).1, (self.observe result).2.raw) := by
  cases result with
  | Completed context => rfl
  | Failed context nodeId reason =>
    by_cases room : self.len < CAP
    · simp [RawSupervisor.observe, RawSupervisor.store, Supervisor.observe, Supervisor.raw, room,
        bind, Except.bind, pure, Except.pure]
    · simp [RawSupervisor.observe, Supervisor.observe, Supervisor.raw, room]

theorem raw_find_trace (self : Supervisor CAP) (traceId : UInt64) :
    self.raw.findTrace traceId = .ok (self.findTrace traceId) := if_pos self.bounded

theorem raw_observe_all (self : Supervisor CAP) (results : List WorkResult) :
    self.raw.observeAll results = .ok (self.observeAll results).raw := by
  induction results generalizing self with
  | nil => rfl
  | cons result results ih =>
    rw [RawSupervisor.observeAll, raw_observe]
    exact ih (self.observe result).2

theorem observe_all_append (self : Supervisor CAP) (before after : List WorkResult) :
    self.observeAll (before ++ after) = (self.observeAll before).observeAll after := by
  induction before generalizing self with
  | nil => rfl
  | cons result before ih => exact ih (self.observe result).2

theorem failures_append (before after : List WorkResult) :
    failuresOf (before ++ after) = failuresOf before ++ failuresOf after :=
  List.filterMap_append

theorem failures_cons (result : WorkResult) (results : List WorkResult) :
    failuresOf (result :: results) = (recordOf result).toList ++ failuresOf results := by
  unfold failuresOf
  rw [List.filterMap_cons]
  cases recordOf result with
  | none => rfl
  | some record => rfl

theorem acknowledged_failures (self : Supervisor CAP) (results : List WorkResult) :
    self.acknowledged results = failuresOf results := by
  induction results generalizing self with
  | nil => rfl
  | cons result results ih =>
    rw [Supervisor.acknowledged, observe_returns, ih, failures_cons]

theorem observe_all_logs {self : Supervisor CAP} {seen : List FailureRecord}
    (logs : Logs self seen) (results : List WorkResult) :
    Logs (self.observeAll results) (seen ++ failuresOf results) := by
  induction results generalizing self seen with
  | nil =>
    rw [failuresOf, List.filterMap_nil, List.append_nil]
    exact logs
  | cons result results ih =>
    rw [failures_cons, ← List.append_assoc]
    exact ih (observe_logs logs result)

theorem run_logs (CAP : Nat) (results : List WorkResult) :
    Logs ((Supervisor.new : Supervisor CAP).observeAll results) (failuresOf results) := by
  have blank : Logs (Supervisor.new : Supervisor CAP) [] := logs_new
  have logs := observe_all_logs blank results
  rw [List.nil_append] at logs
  exact logs

theorem records_some_iff {self : Supervisor CAP} {seen : List FailureRecord}
    (logs : Logs self seen) {i : Nat} (inside : i < CAP) :
    (∃ record, self.records[i]? = some (some record)) ↔ i < self.len := by
  have count := logs.count
  rw [logs.record i inside]
  by_cases before : i < self.len
  · have known : i < seen.length := by omega
    rw [if_pos before, List.getElem?_eq_getElem known]
    exact ⟨fun _ => before, fun _ => ⟨_, rfl⟩⟩
  · rw [if_neg before]
    constructor
    · rintro ⟨record, stored⟩
      cases stored
    · intro stored
      exact absurd stored before

/-- What find_trace finds, later calls of observe do not change. -/
theorem findable_stays {self : Supervisor CAP} {seen : List FailureRecord}
    (logs : Logs self seen) {traceId : UInt64} {record : FailureRecord}
    (found : self.findTrace traceId = some record) (results : List WorkResult) :
    (self.observeAll results).findTrace traceId = some record := by
  rw [find_trace_earliest logs] at found
  rw [find_trace_earliest (observe_all_logs logs results)]
  have extended : seen <+: seen ++ failuresOf results := List.prefix_append _ _
  have older : seen.take CAP <+: (seen ++ failuresOf results).take CAP := extended.take CAP
  exact older.find?_eq_some found

theorem found_iff_logged {self : Supervisor CAP} {seen : List FailureRecord}
    (logs : Logs self seen) (traceId : UInt64) :
    (∃ found, self.findTrace traceId = some found) ↔
      ∃ record, record ∈ seen.take CAP ∧ record.context.traceId = traceId := by
  rw [find_trace_earliest logs, ← Option.isSome_iff_exists, List.find?_isSome]
  simp

theorem found_has_trace {self : Supervisor CAP} {traceId : UInt64} {found : FailureRecord}
    (lookup : self.findTrace traceId = some found) : found.context.traceId = traceId := by
  have matched := List.find?_some lookup
  exact eq_of_beq matched

/-- The log after any calls of observe from new(): the first CAP failures, under
    every bounds check of the source, and a lookup that later calls keep. -/
theorem supervisor_bounded_log (CAP : Nat) (results : List WorkResult) :
    let sup := (Supervisor.new : Supervisor CAP).observeAll results
    (RawSupervisor.new : RawSupervisor CAP).observeAll results = .ok sup.raw ∧
      sup.len ≤ CAP ∧
      (∀ i, i < CAP → ((∃ record, sup.records[i]? = some (some record)) ↔ i < sup.len)) ∧
      sup.records.toList.take sup.len = ((failuresOf results).take CAP).map some ∧
      sup.failureCount = min CAP (failuresOf results).length ∧
      (∀ traceId,
        sup.raw.findTrace traceId = .ok (sup.findTrace traceId) ∧
          sup.findTrace traceId = ((failuresOf results).take CAP).find? fun record =>
            record.context.traceId == traceId) ∧
      (∀ context, sup.observe (.Completed context) = (none, sup)) ∧
      ∀ traceId record, sup.findTrace traceId = some record →
        ∀ later, ((Supervisor.new : Supervisor CAP).observeAll (results ++ later)).findTrace
          traceId = some record := by
  intro sup
  have logs : Logs sup (failuresOf results) := run_logs CAP results
  refine ⟨raw_observe_all Supervisor.new results, sup.bounded, ?_, logged_records logs,
    failure_count_min logs, ?_, fun context => rfl, ?_⟩
  · intro i inside
    exact records_some_iff logs inside
  · intro traceId
    exact ⟨raw_find_trace sup traceId, find_trace_earliest logs traceId⟩
  · intro traceId record found later
    rw [observe_all_append]
    exact findable_stays logs found later

/-- Along the calls, every failure that observe returned is found by its trace id
    from then on, and failure_count counts the calls that returned one. -/
structure KeepsAcknowledged (CAP : Nat) (results : List WorkResult) : Prop where
  found : ∀ before result between after record,
    results = before ++ result :: (between ++ after) →
      (((Supervisor.new : Supervisor CAP).observeAll before).observe result).1 = some record →
        ∃ kept, ((Supervisor.new : Supervisor CAP).observeAll
            (before ++ result :: between)).findTrace record.context.traceId = some kept ∧
          kept.context.traceId = record.context.traceId
  counted : ∀ before after, results = before ++ after →
    ((Supervisor.new : Supervisor CAP).observeAll before).failureCount =
      ((Supervisor.new : Supervisor CAP).acknowledged before).length

theorem keeps_of_room {CAP : Nat} {results : List WorkResult}
    (room : (failuresOf results).length ≤ CAP) : KeepsAcknowledged CAP results := by
  constructor
  · intro before result between after record split returned
    have logs := run_logs CAP (before ++ result :: between)
    rw [observe_returns] at returned
    have few : (failuresOf (before ++ result :: between)).length ≤ CAP := by
      have shorter : results = (before ++ result :: between) ++ after := by
        rw [split, List.append_assoc, List.cons_append]
      rw [shorter, failures_append, List.length_append] at room
      omega
    have stored : record ∈ (failuresOf (before ++ result :: between)).take CAP := by
      rw [List.take_of_length_le few, failures_append, failures_cons, returned]
      simp
    obtain ⟨kept, lookup⟩ := (found_iff_logged logs record.context.traceId).mpr
      ⟨record, stored, rfl⟩
    exact ⟨kept, lookup, found_has_trace lookup⟩
  · intro before after split
    rw [failure_count_min (run_logs CAP before), acknowledged_failures]
    rw [split, failures_append, List.length_append] at room
    omega

/-- Once the log is full, observe still returns the failure and stores nothing. -/
theorem acknowledged_kept_iff (CAP : Nat) (results : List WorkResult) :
    (KeepsAcknowledged CAP results ↔ (failuresOf results).length ≤ CAP) ∧
      ((Supervisor.new : Supervisor CAP).observeAll results).failureCount =
        min CAP ((Supervisor.new : Supervisor CAP).acknowledged results).length ∧
      ∀ traceId,
        (∃ kept, ((Supervisor.new : Supervisor CAP).observeAll results).findTrace traceId =
          some kept) ↔
            ∃ record, record ∈
              ((Supervisor.new : Supervisor CAP).acknowledged results).take CAP ∧
                record.context.traceId = traceId := by
  have logs := run_logs CAP results
  rw [acknowledged_failures]
  refine ⟨⟨?_, keeps_of_room⟩, failure_count_min logs, found_iff_logged logs⟩
  intro keeps
  have counted := keeps.counted results [] (List.append_nil results).symm
  rw [failure_count_min logs, acknowledged_failures] at counted
  omega

/-- Two failures of different traces at capacity one: the second is returned and lost. -/
theorem second_failure_lost :
    let first : WorkResult := .Failed ⟨1, 0, 0⟩ 1 "first"
    let second : WorkResult := .Failed ⟨2, 0, 0⟩ 1 "second"
    let sup := (Supervisor.new : Supervisor 1).observeAll [first]
    (sup.observe second).1 = some ⟨⟨2, 0, 0⟩, 1, "second"⟩ ∧
      (sup.observe second).2.findTrace 2 = none ∧
      (sup.observe second).2.failureCount = 1 ∧
      ¬ ∀ (CAP : Nat) (results : List WorkResult), 0 < CAP → KeepsAcknowledged CAP results := by
  refine ⟨by decide, by decide, by decide, ?_⟩
  intro every
  have counted := (every 1 [.Failed ⟨1, 0, 0⟩ 1 "first", .Failed ⟨2, 0, 0⟩ 1 "second"]
    (by decide)).counted _ [] (List.append_nil _).symm
  exact absurd counted (by decide)

end CellSupervisor
