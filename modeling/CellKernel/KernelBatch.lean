import CellKernel.KernelBoot

/-
The batch on its way through the two cores: at every moment each payload is in
exactly one place, in order, and the results the BSP has read are those of the
first payloads.
-/
namespace CellKernel
open CellCore CellFifo CellRuns CellSupervisor

variable {m : Machine}

def ApPc.held : ApPc → List RawPayload
  | .returning raw _ => [raw]
  | _ => []

def isFailure : WorkResult → Bool
  | .Completed _ => false
  | .Failed _ _ _ => true

/-- The supervisor and the counters after the given results. -/
structure Accounted {count : Nat} (r : Report count) (results : List WorkResult) : Prop where
  reports : r.reports = results.length
  succeeded : r.succeeded = results.countP fun result => !isFailure result
  failed : r.failed = results.countP isFailure
  log : Logs r.supervisor (results.filterMap recordOf)

theorem accounted_start (count : Nat) : Accounted (Report.start count) [] :=
  ⟨rfl, rfl, rfl, logs_new⟩

theorem record_accounted {count : Nat} {r later : Report count} {results : List WorkResult}
    {result : WorkResult} (accounted : Accounted r results)
    (recorded : r.record result = some later) : Accounted later (results ++ [result]) := by
  have log := observe_logs accounted.log result
  have extended : results.filterMap recordOf ++ (recordOf result).toList =
      (results ++ [result]).filterMap recordOf := by
    rw [List.filterMap_append]
    cases result <;> rfl
  rw [extended] at log
  cases result with
  | Completed context =>
    simp only [Report.record] at recorded
    split at recorded
    · cases recorded
      constructor
      · simp [accounted.reports]
      · simp [accounted.succeeded, isFailure]
      · simp [accounted.failed, isFailure]
      · exact log
    · cases recorded
  | Failed context nodeId reason =>
    simp only [Report.record] at recorded
    split at recorded
    · cases recorded
      constructor
      · simp [accounted.reports]
      · simp [accounted.succeeded, isFailure]
      · simp [accounted.failed, isFailure]
      · exact log
    · cases recorded

theorem accounted_failures {count : Nat} {r : Report count} {results : List WorkResult}
    (accounted : Accounted r results) (fits : results.length ≤ count) :
    r.supervisor.failureCount = r.failed := by
  have counted : (results.filterMap recordOf).length = results.countP isFailure := by
    clear accounted fits
    induction results with
    | nil => rfl
    | cons result rest ih =>
      cases result <;> simp [List.filterMap_cons, List.countP_cons, recordOf, isFailure, ih]
  have bound := List.countP_le_length (p := isFailure) (l := results)
  rw [failure_count_min accounted.log, counted, accounted.failed]
  omega

/-- The payloads answered to the BSP, those whose results wait, the one the AP
    has, those in the queue and the unsent ones are the batch. -/
structure Conserved (w : World m) (reported waiting : List RawPayload) : Prop where
  batch : m.batch = reported ++ waiting ++ w.ap.held ++ w.interCore.items ++ w.unsent
  results : w.reported = reported.map workResult
  completion : w.completion.items = waiting.map workResult
  answer : ∀ raw result, w.ap = .returning raw result → result = workResult raw

theorem conserved_start : Conserved (World.start m) [] [] := by
  constructor
  · rfl
  · rfl
  · rfl
  · intro raw result here
    cases here

section
variable {w next : World m} {reported waiting : List RawPayload}
  (conserved : Conserved w reported waiting)
include conserved

theorem conserved_same (interCore : next.interCore = w.interCore)
    (completion : next.completion = w.completion) (unsent : next.unsent = w.unsent)
    (results : next.reported = w.reported)
    (ap : next.ap = w.ap ∨ (w.ap.held = [] ∧ next.ap.held = [])) :
    Conserved next reported waiting := by
  have held : next.ap.held = w.ap.held := by
    cases ap with
    | inl same => rw [same]
    | inr neither => rw [neither.1, neither.2]
  constructor
  · rw [held, interCore, unsent]
    exact conserved.batch
  · rw [results]
    exact conserved.results
  · rw [completion]
    exact conserved.completion
  · intro raw result here
    cases ap with
    | inl same => exact conserved.answer raw result (same ▸ here)
    | inr neither =>
      rw [here] at neither
      cases neither.2

theorem conserved_popped {result : WorkResult} {completion : Fifo WorkResult m.completionCap}
    (popped : w.completion.pop = some (result, completion))
    (interCore : next.interCore = w.interCore) (rest : next.completion = completion)
    (unsent : next.unsent = w.unsent)
    (results : next.reported = w.reported ++ [result]) (ap : next.ap = w.ap) :
    ∃ reported waiting, Conserved next reported waiting := by
  have items := (pop_some_iff _ _ _).mp popped
  have shape := conserved.completion
  rw [items] at shape
  cases waiting with
  | nil => cases shape
  | cons raw later =>
    rw [List.map_cons, List.cons.injEq] at shape
    obtain ⟨answer, others⟩ := shape
    refine ⟨reported ++ [raw], later, ?_, ?_, ?_, ?_⟩
    · rw [ap, interCore, unsent, conserved.batch]
      simp
    · rw [results, conserved.results, answer]
      simp
    · rw [rest]
      exact others
    · rw [ap]
      exact conserved.answer

theorem conserved_bsp (parked : ∀ pc, w.bsp = .booting pc → w.ap = .parked)
    (move : BspMove w next) : ∃ reported waiting, Conserved next reported waiting := by
  cases move with
  | booted pc later next here same ap there nearer =>
    exact ⟨_, _, conserved_same conserved same.interCore same.completion same.unsent
      same.reported (Or.inl ap)⟩
  | bootFailed pc why held next here same ap there during =>
    exact ⟨_, _, conserved_same conserved same.interCore same.completion same.unsent
      same.reported (Or.inl ap)⟩
  | apStarted tensor here =>
    have idle : w.ap.held = [] := by
      rw [parked _ here]
      rfl
    exact ⟨_, _, conserved_same conserved rfl rfl rfl rfl (Or.inr ⟨idle, rfl⟩)⟩
  | sent tensor raw rest interCore here unsent pushed =>
    obtain ⟨_, items⟩ := (push_some_iff _ _ _).mp pushed
    refine ⟨reported, waiting, ?_, conserved.results, conserved.completion, conserved.answer⟩
    rw [conserved.batch, unsent, items]
    simp
  | reported report later result completion here more popped recorded =>
    exact conserved_popped conserved popped rfl rfl rfl rfl rfl
  | countOverflowed report result completion here more popped overflow =>
    exact conserved_popped conserved popped rfl rfl rfl rfl rfl
  | _ => exact ⟨_, _, conserved_same conserved rfl rfl rfl rfl (Or.inl rfl)⟩

theorem conserved_ap (move : ApMove w next) :
    ∃ reported waiting, Conserved next reported waiting := by
  cases move with
  | taken raw interCore here more popped =>
    have items := (pop_some_iff _ _ _).mp popped
    have batch := conserved.batch
    rw [here, items] at batch
    refine ⟨reported, waiting, ?_, conserved.results, conserved.completion, ?_⟩
    · rw [batch]
      simp [ApPc.held]
    · intro other result returning
      cases returning
      rfl
  | returned raw result completion here pushed =>
    obtain ⟨_, items⟩ := (push_some_iff _ _ _).mp pushed
    have batch := conserved.batch
    rw [here] at batch
    refine ⟨reported, waiting ++ [raw], ?_, conserved.results, ?_, ?_⟩
    · rw [batch]
      simp [ApPc.held]
    · rw [items, conserved.completion, conserved.answer raw result here]
      simp
    · intro other answer returning
      cases returning
  | _ =>
    exact ⟨_, _, conserved_same conserved rfl rfl rfl rfl (Or.inr ⟨by simp [*, ApPc.held], rfl⟩)⟩

end

theorem reachable_conserved {w : World m} (reached : Reachable step (World.start m) w) :
    ∃ reported waiting, Conserved w reported waiting := by
  apply kept_by_moves _ _ reached
  · exact ⟨[], [], conserved_start⟩
  · intro s core t before conserved moves
    obtain ⟨reported, waiting, conserved⟩ := conserved
    cases core_move_cases moves with
    | inl move => exact conserved_bsp conserved (parked_while_booting before) move
    | inr move => exact conserved_ap conserved move

def Reporting (w : World m) : Prop :=
  match w.bsp with
  | .reporting report => Accounted report w.reported
  | .finished report => Accounted report w.reported ∧ m.batch.length ≤ report.reports
  | .halted _ _ => True
  | _ => w.reported = []

theorem reachable_reporting {w : World m} (reached : Reachable step (World.start m) w) :
    Reporting w := by
  apply kept_by_moves _ _ reached
  · exact rfl
  · intro s core t _ reporting moves
    cases core_move_cases moves with
    | inl move =>
      cases move with
      | booted pc later next here same ap there nearer =>
        rw [Reporting, here] at reporting
        rw [Reporting, there]
        exact same.reported.trans reporting
      | bootFailed pc why held next here same ap there during =>
        rw [Reporting, there]
        trivial
      | apStarted tensor here =>
        rw [Reporting, here] at reporting
        exact reporting
      | apSeen tensor here ready =>
        rw [Reporting, here] at reporting
        exact reporting
      | sent tensor raw rest interCore here unsent pushed =>
        rw [Reporting, here] at reporting
        rw [Reporting, here]
        exact reporting
      | tensorRefused tensor here unsent full => trivial
      | tensorSent tensor tensors here unsent pushed =>
        rw [Reporting, here] at reporting
        exact reporting
      | tensorSeen here complete =>
        rw [Reporting, here] at reporting
        have none : s.reported = [] := reporting
        rw [Reporting, none]
        exact accounted_start _
      | reported report later result completion here more popped recorded =>
        rw [Reporting, here] at reporting
        exact record_accounted reporting recorded
      | countOverflowed report result completion here more popped overflow => trivial
      | finished report here all =>
        rw [Reporting, here] at reporting
        exact ⟨reporting, Nat.le_of_not_lt all⟩
    | inr move => cases move <;> exact reporting

theorem work_result_of_new {context : TraceContext} {input : List UInt8} {raw : RawPayload}
    (built : RawPayload.new context input = .ok raw) : workResult raw =
      if input = [] then .Failed context 1 "Corrupted payload in AP1"
      else .Completed context := by
  obtain ⟨same, validated, _⟩ := new_keeps_input built ⟨0xCE112021⟩
  have empty := new_empty_iff built
  unfold workResult
  rw [same, validated]
  by_cases none : input = []
  · rw [if_pos (empty.mpr none), if_pos none]
  · rw [if_neg (fun filled => none (empty.mp filled)), if_neg none]

/-- What the AP owes for a payload, from what the payload was built of. -/
def answer (sent : TraceContext × List UInt8) : WorkResult :=
  if sent.2 = [] then .Failed sent.1 1 "Corrupted payload in AP1" else .Completed sent.1

theorem answers_of_built {inputs : List (TraceContext × List UInt8)} {batch : List RawPayload}
    (built : List.Forall₂ (fun sent raw => RawPayload.new sent.1 sent.2 = .ok raw) inputs batch) :
    batch.map workResult = inputs.map answer := by
  induction built with
  | nil => rfl
  | cons here _ ih => rw [List.map_cons, List.map_cons, work_result_of_new here, ih, answer]

theorem finished_reports_batch {w : World m} (reached : Reachable step (World.start m) w)
    {report : Report m.batch.length} (here : w.bsp = .finished report) :
    w.reported = m.batch.map workResult ∧ Accounted report w.reported ∧
      report.supervisor.failureCount = report.failed := by
  obtain ⟨reported, waiting, conserved⟩ := reachable_conserved reached
  have reporting := reachable_reporting reached
  rw [Reporting, here] at reporting
  obtain ⟨accounted, all⟩ := reporting
  have counted := accounted.reports
  have lengths := congrArg List.length conserved.batch
  rw [conserved.results, List.length_map] at counted
  simp only [List.length_append] at lengths
  have rest : waiting ++ w.ap.held ++ w.interCore.items ++ w.unsent = [] := by
    apply List.eq_nil_of_length_eq_zero
    simp only [List.length_append]
    omega
  have split : m.batch =
      reported ++ (waiting ++ w.ap.held ++ w.interCore.items ++ w.unsent) := by
    rw [conserved.batch]
    simp only [List.append_assoc]
  have whole : m.batch = reported := by
    rw [split, rest, List.append_nil]
  refine ⟨by rw [whole, conserved.results], accounted, ?_⟩
  apply accounted_failures accounted
  rw [conserved.results, List.length_map, whole]

theorem reported_answers {w : World m} (reached : Reachable step (World.start m) w)
    {inputs : List (TraceContext × List UInt8)}
    (built : List.Forall₂ (fun sent raw => RawPayload.new sent.1 sent.2 = .ok raw)
      inputs m.batch) : w.reported = (inputs.take w.reported.length).map answer := by
  obtain ⟨reported, waiting, conserved⟩ := reachable_conserved reached
  have first : (m.batch.map workResult).take w.reported.length = w.reported := by
    rw [conserved.batch, conserved.results, List.length_map]
    simp
  rw [List.map_take, ← answers_of_built built, first]

/-- Every payload of the batch is in one place and in order in every reachable
    state, and the results the BSP has read are those of the first payloads. The
    counters agree with them, and at the end they cover the whole batch. The
    results are those that the rule gives for what the payloads were built of. -/
theorem batch_reported_in_order {w : World m} (reached : Reachable step (World.start m) w) :
    (∃ reported waiting,
      m.batch = reported ++ waiting ++ w.ap.held ++ w.interCore.items ++ w.unsent ∧
        w.reported = reported.map workResult ∧
        w.completion.items = waiting.map workResult) ∧
      (∀ report, w.bsp = .reporting report → Accounted report w.reported) ∧
      (∀ report, w.bsp = .finished report → w.reported = m.batch.map workResult ∧
        Accounted report w.reported ∧ report.supervisor.failureCount = report.failed) ∧
      (∀ context input raw, RawPayload.new context input = .ok raw → workResult raw =
        if input = [] then .Failed context 1 "Corrupted payload in AP1"
        else .Completed context) ∧
      ∀ inputs, List.Forall₂ (fun sent raw => RawPayload.new sent.1 sent.2 = .ok raw)
        inputs m.batch → w.reported = (inputs.take w.reported.length).map answer ∧
          ∀ report, w.bsp = .finished report → w.reported = inputs.map answer := by
  obtain ⟨reported, waiting, conserved⟩ := reachable_conserved reached
  have reporting := reachable_reporting reached
  refine ⟨⟨reported, waiting, conserved.batch, conserved.results, conserved.completion⟩,
    ?_, ?_, ?_, ?_⟩
  · intro report here
    rw [Reporting, here] at reporting
    exact reporting
  · intro report here
    exact finished_reports_batch reached here
  · intro context input raw built
    exact work_result_of_new built
  · intro inputs built
    refine ⟨reported_answers reached built, ?_⟩
    intro report here
    rw [← answers_of_built built]
    exact (finished_reports_batch reached here).1

theorem announced_reduces (b : Boot (twoPacketMachine 2)) :
    Reachable step { b.launched with apReady := true, ap := .working } { b.launched with
      apReady := true
      apProcessed := 2
      bsp := .awaitingTensor
      ap := .reducing b.tensor
      unsent := []
      completion := ⟨(twoPacketMachine 2).batch.map workResult, by decide⟩ } := by
  have ran : run step (fun _ _ => True) { b.launched with apReady := true, ap := .working }
      [.bsp, .bsp, .ap, .ap, .ap, .bsp, .ap, .ap, .ap, .bsp, .ap, .ap] = some _ := rfl
  exact reaches_of_run .start ran

theorem two_packets_reducing (b : Boot (twoPacketMachine 2)) :
    Reachable step (World.start (twoPacketMachine 2)) { b.launched with
      apReady := true
      apProcessed := 2
      bsp := .awaitingTensor
      ap := .reducing b.tensor
      unsent := []
      completion := ⟨(twoPacketMachine 2).batch.map workResult, by decide⟩ } :=
  reaches_trans (.next .ap b.launched_reachable trivial (step_of_moves rfl)) (announced_reduces b)

/-- The first packet, which is empty, has been reported; the second is answered. -/
theorem two_packets_in_order : ∃ w : World (twoPacketMachine 2),
    Reachable step (World.start _) w ∧
      w.reported = [.Failed ⟨1, 1, 0⟩ 1 "Corrupted payload in AP1"] ∧
      w.completion.items = [.Completed ⟨2, 2, 0⟩] ∧ ∃ reported waiting,
        (twoPacketMachine 2).batch =
          reported ++ waiting ++ w.ap.held ++ w.interCore.items ++ w.unsent ∧
        w.reported = reported.map workResult ∧
        w.completion.items = waiting.map workResult := by
  obtain ⟨b⟩ := two_packet_boot 2
  have completed := b.reducing_completes (two_packets_reducing b) rfl rfl
  have seen := Reaches.next .bsp completed trivial (step_of_moves rfl)
  have reached := Reaches.next .bsp seen trivial (step_of_moves rfl)
  obtain ⟨placed, _, _, _, answers⟩ := batch_reported_in_order reached
  exact ⟨_, reached, (answers _ (two_packets_built 2)).1, rfl, placed⟩

def PACKET_COUNT : Nat := 10

/-- What the send loop of _start builds for a trace id: b"CELL data", and for
    the fourth nothing. -/
def sentPayload (traceId : Nat) : Except WorkResult RawPayload :=
  RawPayload.new ⟨UInt64.ofNat traceId, UInt64.ofNat traceId, 0⟩
    (if traceId = 4 then [] else [67, 69, 76, 76, 32, 100, 97, 116, 97])

theorem sent_failures {traceIds : List Nat} {batch : List RawPayload}
    (sent : List.Forall₂ (fun traceId raw => sentPayload traceId = .ok raw) traceIds batch) :
    (batch.map workResult).countP isFailure = traceIds.countP fun traceId => traceId == 4 := by
  induction sent with
  | nil => rfl
  | @cons traceId raw _ _ built rest ih =>
    rw [List.map_cons, List.countP_cons, List.countP_cons, ih, work_result_of_new built]
    by_cases fourth : traceId = 4
    · simp [fourth, isFailure]
    · simp [fourth, isFailure]

/-- The batch of the kernel ends as its last line says, in whatever order the
    two cores have taken their steps. -/
theorem kernel_batch_completes (sent : List.Forall₂
    (fun traceId raw => sentPayload traceId = .ok raw) (List.range' 1 PACKET_COUNT) m.batch)
    {w : World m} (reached : Reachable step (World.start m) w)
    {report : Report m.batch.length} (here : w.bsp = .finished report) :
    report.batchCompleted = true := by
  obtain ⟨results, accounted, recorded⟩ := finished_reports_batch reached here
  have failures := sent_failures sent
  have one : (List.range' 1 PACKET_COUNT).countP (fun traceId => traceId == 4) = 1 := by decide
  have total := List.length_eq_countP_add_countP isFailure (l := m.batch.map workResult)
  have ten : m.batch.length = 10 := sent.length_eq.symm
  have failed := accounted.failed
  have succeeded := accounted.succeeded
  rw [results] at failed succeeded
  simp only [Bool.not_eq_true, Bool.decide_eq_false] at total
  rw [List.length_map] at total
  simp only [Report.batchCompleted, Bool.and_eq_true, beq_iff_eq]
  omega

end CellKernel
