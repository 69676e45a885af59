import CellKernel.Payload

/-
The failure log of crates/cell-supervisor: the first CAP failures observed, in
order. len is private and only observe changes it, below CAP.
-/
namespace CellSupervisor
open CellCore

structure FailureRecord where
  context : TraceContext
  nodeId : UInt16
  reason : String
  deriving DecidableEq, Repr

structure Supervisor (CAP : Nat) where
  records : Vector (Option FailureRecord) CAP
  len : Nat
  bounded : len ≤ CAP

variable {CAP : Nat}

def Supervisor.new : Supervisor CAP := ⟨Vector.replicate CAP none, 0, Nat.zero_le CAP⟩

def Supervisor.observe (self : Supervisor CAP) :
    WorkResult → Option FailureRecord × Supervisor CAP
  | .Completed _ => (none, self)
  | .Failed context nodeId reason =>
      let record : FailureRecord := ⟨context, nodeId, reason⟩
      if room : self.len < CAP then
        (some record, ⟨self.records.set self.len (some record), self.len + 1, room⟩)
      else (some record, self)

def Supervisor.failureCount (self : Supervisor CAP) : Nat := self.len

def Supervisor.findTrace (self : Supervisor CAP) (traceId : UInt64) : Option FailureRecord :=
  ((self.records.toList.take self.len).filterMap id).find? fun record =>
    record.context.traceId == traceId

def Supervisor.resetFailedNode {Halt M : Type} [KernelModule Halt M]
    (_self : Supervisor CAP) (node : M) : WorkResult → Except Halt (Bool × M)
  | .Failed _ _ _ => (KernelModule.resetState node).map fun node => (true, node)
  | .Completed _ => .ok (false, node)

def recordOf : WorkResult → Option FailureRecord
  | .Completed _ => none
  | .Failed context nodeId reason => some ⟨context, nodeId, reason⟩

/-- The log holds the first CAP of the failures seen. -/
structure Logs (sup : Supervisor CAP) (seen : List FailureRecord) : Prop where
  count : sup.len = min CAP seen.length
  record : ∀ i, i < CAP → sup.records[i]? = some (if i < sup.len then seen[i]? else none)

theorem logs_new : Logs (Supervisor.new : Supervisor CAP) [] := by
  constructor
  · simp [Supervisor.new]
  · intro i inside
    simp [Supervisor.new, inside]

theorem observe_returns (self : Supervisor CAP) (result : WorkResult) :
    (self.observe result).1 = recordOf result := by
  cases result with
  | Completed context => rfl
  | Failed context nodeId reason =>
    simp only [Supervisor.observe]
    split <;> rfl

theorem observe_logs {self : Supervisor CAP} {seen : List FailureRecord}
    (logs : Logs self seen) (result : WorkResult) :
    Logs (self.observe result).2 (seen ++ (recordOf result).toList) := by
  have count := logs.count
  cases result with
  | Completed context =>
    rw [recordOf, Option.toList_none, List.append_nil]
    exact logs
  | Failed context nodeId reason =>
    simp only [recordOf, Option.toList_some, Supervisor.observe]
    split
    · rename_i room
      have here : self.len = seen.length := by omega
      constructor
      · simp only [List.length_append, List.length_singleton]
        omega
      · intro i inside
        rw [Vector.getElem?_set room]
        by_cases last : self.len = i
        · subst i
          simp [here]
        · rw [if_neg last, logs.record i inside, List.getElem?_append]
          by_cases before : i < self.len
          · have known : i < seen.length := by omega
            simp [before, known, Nat.lt_succ_of_lt before]
          · have past : ¬ i < self.len + 1 := by omega
            simp [before, past]
    · rename_i full
      constructor
      · simp only [List.length_append, List.length_singleton]
        omega
      · intro i inside
        have known : i < seen.length := by omega
        rw [logs.record i inside, List.getElem?_append_left known]

theorem logged_records {self : Supervisor CAP} {seen : List FailureRecord}
    (logs : Logs self seen) :
    self.records.toList.take self.len = (seen.take CAP).map some := by
  have count := logs.count
  have bounded := self.bounded
  apply List.ext_getElem?
  intro i
  rw [List.getElem?_take, List.getElem?_map, List.getElem?_take, Vector.getElem?_toList]
  by_cases before : i < self.len
  · have known : i < seen.length := by omega
    have inside : i < CAP := by omega
    rw [if_pos before, if_pos inside, logs.record i inside, if_pos before,
      List.getElem?_eq_getElem known]
    rfl
  · rw [if_neg before]
    by_cases inside : i < CAP
    · have past : seen.length ≤ i := by omega
      rw [if_pos inside, List.getElem?_eq_none past]
      rfl
    · rw [if_neg inside]
      rfl

theorem find_trace_earliest {self : Supervisor CAP} {seen : List FailureRecord}
    (logs : Logs self seen) (traceId : UInt64) :
    self.findTrace traceId =
      (seen.take CAP).find? fun record => record.context.traceId == traceId := by
  rw [Supervisor.findTrace, logged_records logs, List.filterMap_map]
  simp

theorem failure_count_min {self : Supervisor CAP} {seen : List FailureRecord}
    (logs : Logs self seen) : self.failureCount = min CAP seen.length := logs.count

theorem reset_failed_node {Halt M : Type} [KernelModule Halt M] (self : Supervisor CAP)
    (node : M) (context : TraceContext) (nodeId : UInt16) (reason : String) :
    self.resetFailedNode node (.Failed context nodeId reason) =
      (KernelModule.resetState node).map fun node => (true, node) := rfl

end CellSupervisor
