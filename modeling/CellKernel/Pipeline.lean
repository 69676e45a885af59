import CellKernel.SpscQueue
import CellKernel.Supervisor

/-
The ingress, validator and worker loops of tests/simulation_harness/tests/
pipeline.rs, for any batch and any capacities. The counters keep the types of
the harness: failures is an i32, the counts of the worker are usize.
-/
namespace CellPipeline
open CellCore CellQueue CellSupervisor

def INGRESS : UInt16 := 1
def WORKER : UInt16 := 3

inductive Panic where
  | assertionFailed
  | expectFailed
  | overflow
  | workerReturnedFailure
  | queue (fault : Fault)
  deriving DecidableEq, Repr

/-- n += 1 for a counter whose values stay below limit. -/
def bump (limit n : Nat) : Except Panic Nat :=
  if n + 1 < limit then .ok (n + 1) else .error .overflow

def verifier : ValidatorCapability := ⟨0xCE112021⟩

structure Worker where
  processed : Nat
  resetCount : Nat
  deriving DecidableEq

instance : KernelModule Panic Worker where
  Input := ValidatedPayload
  Output := WorkResult
  process worker item :=
    if item.asBytes.head? = some 0xff then
      .ok (.error (.Failed item.context WORKER "fault-injected payload"), worker)
    else
      (bump (2 ^ 64) worker.processed).map fun processed =>
        (.ok (.Completed item.context), { worker with processed := processed })
  resetState worker :=
    (bump (2 ^ 64) worker.resetCount).map fun resetCount =>
      { worker with resetCount := resetCount }

structure Packet where
  context : TraceContext
  input : List UInt8
  deriving DecidableEq

/-- What the worker loop changes, and the payloads it gave to the worker. -/
structure Harness (S : Nat) where
  worker : Worker
  supervisor : Supervisor S
  failures : Nat
  seen : List ValidatedPayload

variable {C S : Nat}

def send {T : Type} (q : SpscQueue T C) (item : T) : Except Panic (SpscQueue T C) :=
  match q.push item with
  | .error fault => .error (.queue fault)
  | .ok (.error _, _) => .error .expectFailed
  | .ok (.ok (), r) => .ok r

/-- while let Some(item) = q.pop() -/
def forEachPopped {T State : Type} (q : SpscQueue T C) (body : State → T → Except Panic State)
    (state : State) : Except Panic (SpscQueue T C × State) :=
  match _ran : q.pop with
  | .error fault => .error (.queue fault)
  | .ok (none, r) => .ok (r, state)
  | .ok (some item, r) =>
      match body state item with
      | .error panic => .error panic
      | .ok next => forEachPopped r body next
termination_by (q.head - q.tail).toNat
decreasing_by exact remaining_decreases _ran

def ingress (q : SpscQueue RawPayload C) (packet : Packet) :
    Except Panic (SpscQueue RawPayload C) :=
  match RawPayload.new packet.context packet.input with
  | .error _ => .error .expectFailed
  | .ok raw => send q raw

def validator (out : SpscQueue ValidatedPayload C)
    (raw : RawPayload) : Except Panic (SpscQueue ValidatedPayload C) :=
  if raw.context.originNode = INGRESS then send out (raw.validate verifier)
  else .error .assertionFailed

def handle (h : Harness S) (validated : ValidatedPayload) : Except Panic (Harness S) := do
  let (result, worker) ← KernelModule.process h.worker validated
  let seen := h.seen ++ [validated]
  match result with
  | .ok (.Completed _) => .ok { h with worker := worker, seen := seen }
  | .ok (.Failed _ _ _) => .error .workerReturnedFailure
  | .error failure =>
      let failures ← bump (2 ^ 31) h.failures
      let (record, supervisor) := h.supervisor.observe failure
      if record.isSome then
        let (reset, worker) ← supervisor.resetFailedNode worker failure
        if reset then .ok ⟨worker, supervisor, failures, seen⟩ else .error .assertionFailed
      else .error .assertionFailed

structure Finished (C S : Nat) where
  ingressToValidator : SpscQueue RawPayload C
  validatorToWorker : SpscQueue ValidatedPayload C
  harness : Harness S

def pipeline (C S : Nat) (packets : List Packet) : Except Panic (Finished C S) := do
  let filled ← packets.foldlM ingress (SpscQueue.new : SpscQueue RawPayload C)
  let (drained, validated) ← forEachPopped filled validator
    (SpscQueue.new : SpscQueue ValidatedPayload C)
  let (emptied, harness) ← forEachPopped validated handle ⟨⟨0, 0⟩, Supervisor.new, 0, []⟩
  return ⟨drained, emptied, harness⟩

theorem bump_below {limit n : Nat} (room : n + 1 < limit) : bump limit n = .ok (n + 1) :=
  if_pos room

theorem bump_limit {limit n : Nat} (last : n + 1 = limit) : bump limit n = .error .overflow :=
  if_neg (by omega)

section
variable (positive : 0 < C) (fits : C < 2 ^ 64) {T : Type}
include positive fits

/-- Fewer than 2^64 items are sent in one run, so no counter wraps. -/
theorem send_spec {q : SpscQueue T C} {held : List T} (tracks : Tracks q 0 held)
    (room : held.length < C) (item : T) :
    ∃ r, send q item = .ok r ∧ Tracks r 0 (held ++ [item]) := by
  have clear : ¬ CellRing.Clashes (2 ^ 64) C 0 held.length :=
    CellRing.no_clash_below (by omega)
  refine ⟨_, ?_, push_tracks fits tracks item room clear⟩
  rw [send, push_room positive fits tracks item room]

theorem for_each_popped {State : Type} (body : State → T → Except Panic State)
    {q : SpscQueue T C} {first : Nat} {held : List T} (tracks : Tracks q first held)
    (state : State) : ∃ r, Tracks r (first + held.length) [] ∧
      forEachPopped q body state = (held.foldlM body state).map fun last => (r, last) := by
  induction held generalizing q first state with
  | nil =>
    refine ⟨q, tracks, ?_⟩
    have ended := pop_empty positive tracks rfl
    rw [forEachPopped]
    split
    · simp_all
    · simp_all [pure, Except.pure, Except.map]
    · simp_all
  | cons item rest ih =>
    have taken := pop_oldest positive fits tracks rfl
    have left := pop_tracks tracks rfl
    cases ran : body state item with
    | error panic =>
      obtain ⟨r, tracksLast, _⟩ := ih left state
      refine ⟨r, ?_, ?_⟩
      · rw [List.length_cons, Nat.add_comm rest.length, ← Nat.add_assoc]
        exact tracksLast
      · rw [forEachPopped]
        split
        · simp_all
        · simp_all
        · rename_i other r popped
          rw [taken] at popped
          cases popped
          simp [ran, bind, Except.bind, Except.map]
    | ok next =>
      obtain ⟨r, tracksLast, looped⟩ := ih left next
      refine ⟨r, ?_, ?_⟩
      · rw [List.length_cons, Nat.add_comm rest.length, ← Nat.add_assoc]
        exact tracksLast
      · rw [forEachPopped]
        split
        · simp_all
        · simp_all
        · rename_i other r popped
          rw [taken] at popped
          cases popped
          simp only [ran, looped, List.foldlM_cons, bind, Except.bind]

end

def carried (validated : ValidatedPayload) : Packet := ⟨validated.context, validated.asBytes⟩

def failing (packet : Packet) : Bool := packet.input.head? == some 0xff

def failureOf (packet : Packet) : FailureRecord :=
  ⟨packet.context, WORKER, "fault-injected payload"⟩

section
variable (positive : 0 < C) (fits : C < 2 ^ 64)
include positive fits

theorem ingress_spec (packets : List Packet)
    (short : ∀ p ∈ packets, p.input.length ≤ 512) {q : SpscQueue RawPayload C}
    {held : List RawPayload} (tracks : Tracks q 0 held)
    (room : held.length + packets.length ≤ C) :
    ∃ r raws, packets.foldlM ingress q = .ok r ∧ Tracks r 0 (held ++ raws) ∧
      raws.map (fun raw => carried (raw.validate verifier)) = packets := by
  induction packets generalizing q held with
  | nil =>
    refine ⟨q, [], rfl, ?_, rfl⟩
    rwa [List.append_nil]
  | cons packet rest ih =>
    rw [List.length_cons] at room
    obtain ⟨raw, built⟩ := (new_accepts_iff packet.context packet.input).mpr
      (short packet List.mem_cons_self)
    obtain ⟨_, context, bytes⟩ := new_keeps_input built verifier
    obtain ⟨q', sent, tracksSent⟩ := send_spec positive fits tracks (by omega) raw
    obtain ⟨r, raws, ran, tracksLast, carries⟩ :=
      ih (fun p member => short p (List.mem_cons_of_mem packet member)) tracksSent
        (by simp only [List.length_append, List.length_singleton]; omega)
    refine ⟨r, raw :: raws, ?_, ?_, ?_⟩
    · simp only [List.foldlM_cons, ingress, built, sent, bind, Except.bind]
      exact ran
    · simpa using tracksLast
    · rw [List.map_cons, carries, carried, context, bytes]

theorem validator_spec (raws : List RawPayload)
    (known : ∀ raw ∈ raws, raw.context.originNode = INGRESS)
    {out : SpscQueue ValidatedPayload C} {held : List ValidatedPayload}
    (tracks : Tracks out 0 held) (room : held.length + raws.length ≤ C) :
    ∃ r, raws.foldlM validator out = .ok r ∧
      Tracks r 0 (held ++ raws.map fun raw => raw.validate verifier) := by
  induction raws generalizing out held with
  | nil =>
    refine ⟨out, rfl, ?_⟩
    rwa [List.map_nil, List.append_nil]
  | cons raw rest ih =>
    rw [List.length_cons] at room
    obtain ⟨out', sent, tracksSent⟩ :=
      send_spec positive fits tracks (by omega) (raw.validate verifier)
    obtain ⟨r, ran, tracksLast⟩ :=
      ih (fun p member => known p (List.mem_cons_of_mem raw member)) tracksSent
        (by simp only [List.length_append, List.length_singleton]; omega)
    refine ⟨r, ?_, ?_⟩
    · simp only [List.foldlM_cons, validator, known raw List.mem_cons_self, if_true, sent, bind,
        Except.bind]
      exact ran
    · simpa using tracksLast

theorem validator_refuses (raws : List RawPayload)
    (foreign : ∃ raw ∈ raws, raw.context.originNode ≠ INGRESS)
    {out : SpscQueue ValidatedPayload C} {held : List ValidatedPayload}
    (tracks : Tracks out 0 held) (room : held.length + raws.length ≤ C) :
    raws.foldlM validator out = .error .assertionFailed := by
  induction raws generalizing out held with
  | nil => simp at foreign
  | cons raw rest ih =>
    rw [List.length_cons] at room
    rw [List.foldlM_cons]
    by_cases known : raw.context.originNode = INGRESS
    · obtain ⟨out', sent, tracksSent⟩ :=
        send_spec positive fits tracks (by omega) (raw.validate verifier)
      rw [validator, if_pos known, sent]
      apply ih _ tracksSent (by simp only [List.length_append, List.length_singleton]; omega)
      obtain ⟨other, member, unknown⟩ := foreign
      rcases List.mem_cons.mp member with here | later
      · exact absurd (here ▸ known) unknown
      · exact ⟨other, later, unknown⟩
    · rw [validator, if_neg known]
      rfl

end

structure Tallied (h : Harness S) (packets : List Packet) : Prop where
  seen : h.seen.map carried = packets
  processed : h.worker.processed = packets.countP fun p => !failing p
  resets : h.worker.resetCount = packets.countP failing
  failures : h.failures = packets.countP failing
  log : Logs h.supervisor ((packets.filter failing).map failureOf)

theorem tallied_start : Tallied (⟨⟨0, 0⟩, Supervisor.new, 0, []⟩ : Harness S) [] :=
  ⟨rfl, rfl, rfl, rfl, logs_new⟩

section
variable {h : Harness S} {packets : List Packet} (tallied : Tallied h packets)
include tallied

theorem handle_passing {validated : ValidatedPayload}
    (passing : failing (carried validated) = false) (short : packets.length + 1 < 2 ^ 64) :
    ∃ next, handle h validated = .ok next ∧
      Tallied next (packets ++ [carried validated]) := by
  have few : h.worker.processed + 1 < 2 ^ 64 := by
    have bound := List.countP_le_length (p := fun p => !failing p) (l := packets)
    rw [tallied.processed]
    omega
  have first : ¬ validated.asBytes.head? = some 0xff := by
    simpa [failing, carried] using passing
  refine ⟨{ h with
    worker := { h.worker with processed := h.worker.processed + 1 }
    seen := h.seen ++ [validated] }, ?_, ?_⟩
  · simp only [handle, KernelModule.process, if_neg first, bump_below few, Except.map, bind,
      Except.bind]
  · constructor
    · simp [tallied.seen]
    · simp [tallied.processed, passing]
    · simp [tallied.resets, passing]
    · simp [tallied.failures, passing]
    · simpa [passing] using tallied.log

theorem handle_failing {validated : ValidatedPayload}
    (fails : failing (carried validated) = true) (room : packets.countP failing + 1 < 2 ^ 31) :
    ∃ next, handle h validated = .ok next ∧
      Tallied next (packets ++ [carried validated]) := by
  have few : h.worker.resetCount + 1 < 2 ^ 64 := by
    rw [tallied.resets]
    omega
  have counted : h.failures + 1 < 2 ^ 31 := by
    rw [tallied.failures]
    exact room
  have first : validated.asBytes.head? = some 0xff := by
    simpa [failing, carried] using fails
  have returned := observe_returns h.supervisor
    (.Failed validated.context WORKER "fault-injected payload")
  refine ⟨{
    worker := { h.worker with resetCount := h.worker.resetCount + 1 }
    supervisor := (h.supervisor.observe
      (.Failed validated.context WORKER "fault-injected payload")).2
    failures := h.failures + 1
    seen := h.seen ++ [validated] }, ?_, ?_⟩
  · simp only [handle, KernelModule.process, if_pos first, bump_below counted, returned, recordOf,
      Option.isSome_some, if_true, reset_failed_node, KernelModule.resetState, bump_below few,
      Except.map, bind, Except.bind]
  · constructor
    · simp [tallied.seen]
    · simp [tallied.processed, fails]
    · simp [tallied.resets, fails]
    · simp [tallied.failures, fails]
    · have added : ((packets ++ [carried validated]).filter failing).map failureOf =
          (packets.filter failing).map failureOf ++ [failureOf (carried validated)] := by
        simp [fails]
      rw [added]
      exact observe_logs tallied.log (.Failed validated.context WORKER "fault-injected payload")

theorem handle_overflow {validated : ValidatedPayload}
    (fails : failing (carried validated) = true)
    (last : packets.countP failing + 1 = 2 ^ 31) : handle h validated = .error .overflow := by
  have counted : h.failures + 1 = 2 ^ 31 := by
    rw [tallied.failures]
    exact last
  have first : validated.asBytes.head? = some 0xff := by
    simpa [failing, carried] using fails
  simp only [handle, KernelModule.process, if_pos first, bump_limit counted, bind, Except.bind]

end

theorem handle_all (items : List ValidatedPayload) {h : Harness S} {packets : List Packet}
    (tallied : Tallied h packets) (short : packets.length + items.length < 2 ^ 64)
    (few : (packets ++ items.map carried).countP failing < 2 ^ 31) :
    ∃ last, items.foldlM handle h = .ok last ∧ Tallied last (packets ++ items.map carried) := by
  induction items generalizing h packets with
  | nil =>
    refine ⟨h, rfl, ?_⟩
    rwa [List.map_nil, List.append_nil]
  | cons item rest ih =>
    have split : packets ++ (item :: rest).map carried =
        (packets ++ [carried item]) ++ rest.map carried := by simp
    rw [split] at few ⊢
    rw [List.length_cons] at short
    have step : ∃ next, handle h item = .ok next ∧
        Tallied next (packets ++ [carried item]) := by
      cases fails : failing (carried item) with
      | false => exact handle_passing tallied fails (by omega)
      | true =>
        apply handle_failing tallied fails
        rw [List.countP_append, List.countP_append, List.countP_singleton, if_pos fails] at few
        omega
    obtain ⟨next, handled, talliedNext⟩ := step
    obtain ⟨last, ran, talliedLast⟩ := ih talliedNext
      (by simp only [List.length_append, List.length_singleton]; omega) few
    refine ⟨last, ?_, talliedLast⟩
    simp only [List.foldlM_cons, handled, bind, Except.bind]
    exact ran

theorem handle_all_overflow (items : List ValidatedPayload) {h : Harness S}
    {packets : List Packet} (tallied : Tallied h packets)
    (short : packets.length + items.length < 2 ^ 64) (below : packets.countP failing < 2 ^ 31)
    (many : 2 ^ 31 ≤ (packets ++ items.map carried).countP failing) :
    items.foldlM handle h = .error .overflow := by
  induction items generalizing h packets with
  | nil =>
    rw [List.map_nil, List.append_nil] at many
    omega
  | cons item rest ih =>
    have split : packets ++ (item :: rest).map carried =
        (packets ++ [carried item]) ++ rest.map carried := by simp
    rw [split] at many
    rw [List.length_cons] at short
    have later : ∀ next : Harness S, Tallied next (packets ++ [carried item]) →
        (packets ++ [carried item]).countP failing < 2 ^ 31 →
          rest.foldlM handle next = .error .overflow := by
      intro next talliedNext belowNext
      exact ih talliedNext
        (by simp only [List.length_append, List.length_singleton]; omega) belowNext many
    rw [List.foldlM_cons]
    cases fails : failing (carried item) with
    | false =>
      obtain ⟨next, handled, talliedNext⟩ := handle_passing tallied fails (by omega)
      rw [handled]
      apply later next talliedNext
      simpa [fails] using below
    | true =>
      by_cases last : packets.countP failing + 1 = 2 ^ 31
      · rw [handle_overflow tallied fails last]
        rfl
      · obtain ⟨next, handled, talliedNext⟩ :=
          handle_failing tallied fails (by omega)
        rw [handled]
        apply later next talliedNext
        rw [List.countP_append, List.countP_singleton, if_pos fails]
        omega

theorem pipeline_refuses_foreign (C S : Nat) (positive : 0 < C) (fits : C < 2 ^ 64)
    {packets : List Packet} (room : packets.length ≤ C)
    (short : ∀ p ∈ packets, p.input.length ≤ 512)
    (foreign : ∃ p ∈ packets, p.context.originNode ≠ INGRESS) :
    pipeline C S packets = .error .assertionFailed := by
  obtain ⟨filled, raws, sent, tracksFilled, carries⟩ :=
    ingress_spec positive fits packets short tracks_new (by simpa using room)
  rw [List.nil_append] at tracksFilled
  have count : raws.length = packets.length := by
    rw [← carries, List.length_map]
  have foreignRaw : ∃ raw ∈ raws, raw.context.originNode ≠ INGRESS := by
    obtain ⟨p, member, unknown⟩ := foreign
    rw [← carries] at member
    obtain ⟨raw, listed, same⟩ := List.mem_map.mp member
    subst p
    exact ⟨raw, listed, unknown⟩
  obtain ⟨drained, _, validating⟩ := for_each_popped positive fits
    validator tracksFilled (SpscQueue.new : SpscQueue ValidatedPayload C)
  rw [validator_refuses positive fits raws foreignRaw tracks_new
    (by rw [List.length_nil]; omega)] at validating
  simp only [pipeline, sent, validating, Except.map, bind, Except.bind]

section
variable (S : Nat) (positive : 0 < C) (fits : C < 2 ^ 64) {packets : List Packet}
  (room : packets.length ≤ C) (short : ∀ p ∈ packets, p.input.length ≤ 512)
  (known : ∀ p ∈ packets, p.context.originNode = INGRESS)
include positive fits room short known

/-- The first two loops bring the packets unchanged and in order before the
    worker and empty both queues; what is left is the worker loop. -/
theorem pipeline_worker_loop : ∃ (drained : SpscQueue RawPayload C)
    (emptied : SpscQueue ValidatedPayload C) (first : Nat) (items : List ValidatedPayload),
    Tracks drained first [] ∧ Tracks emptied first [] ∧ items.map carried = packets ∧
      pipeline C S packets =
        (items.foldlM handle (⟨⟨0, 0⟩, Supervisor.new, 0, []⟩ : Harness S)).map fun last =>
          ⟨drained, emptied, last⟩ := by
  obtain ⟨filled, raws, sent, tracksFilled, carries⟩ :=
    ingress_spec positive fits packets short tracks_new (by simpa using room)
  rw [List.nil_append] at tracksFilled
  have count : raws.length = packets.length := by
    rw [← carries, List.length_map]
  have knownRaws : ∀ raw ∈ raws, raw.context.originNode = INGRESS := by
    intro raw member
    exact known (carried (raw.validate verifier))
      (carries ▸ List.mem_map_of_mem member)
  obtain ⟨validated, checked, tracksValidated⟩ := validator_spec positive fits raws
    knownRaws tracks_new (by rw [List.length_nil]; omega)
  rw [List.nil_append] at tracksValidated
  obtain ⟨drained, tracksDrained, validating⟩ := for_each_popped positive fits
    validator tracksFilled (SpscQueue.new : SpscQueue ValidatedPayload C)
  obtain ⟨emptied, tracksEmptied, working⟩ := for_each_popped positive fits
    handle tracksValidated (⟨⟨0, 0⟩, Supervisor.new, 0, []⟩ : Harness S)
  rw [List.length_map] at tracksEmptied
  refine ⟨drained, emptied, _, raws.map fun raw => raw.validate verifier, tracksDrained,
    tracksEmptied, ?_, ?_⟩
  · rw [List.map_map]
    exact carries
  · rw [checked] at validating
    simp only [pipeline, sent, validating, working, Except.map, bind, Except.bind, pure,
      Except.pure]
    cases (raws.map fun raw => raw.validate verifier).foldlM handle
      (⟨⟨0, 0⟩, Supervisor.new, 0, []⟩ : Harness S) <;> rfl

/-- Every packet of the ingress node reaches the worker once and in order, and
    each failing one is counted, reset for and logged while the log has room. -/
theorem pipeline_isolates_faults (few : packets.countP failing < 2 ^ 31) :
    ∃ done, pipeline C S packets = .ok done ∧
      done.ingressToValidator.pop = .ok (none, done.ingressToValidator) ∧
      done.validatorToWorker.pop = .ok (none, done.validatorToWorker) ∧
      done.harness.seen.map carried = packets ∧
      done.harness.worker.processed = packets.countP (fun p => !failing p) ∧
      done.harness.worker.resetCount = packets.countP failing ∧
      done.harness.failures = packets.countP failing ∧
      done.harness.supervisor.failureCount = min S (packets.countP failing) ∧
      ∀ traceId, done.harness.supervisor.findTrace traceId =
        (((packets.filter failing).take S).find? fun p => p.context.traceId == traceId).map
          failureOf := by
  obtain ⟨drained, emptied, first, items, tracksDrained, tracksEmptied, carries, looped⟩ :=
    pipeline_worker_loop S positive fits room short known
  have count : items.length = packets.length := by
    rw [← carries, List.length_map]
  obtain ⟨last, handled, tallied⟩ := handle_all items (tallied_start (S := S))
    (by rw [List.length_nil]; omega) (by rw [List.nil_append, carries]; exact few)
  rw [List.nil_append, carries] at tallied
  refine ⟨⟨drained, emptied, last⟩, ?_, pop_empty positive tracksDrained rfl,
    pop_empty positive tracksEmptied rfl, tallied.seen, tallied.processed, tallied.resets,
    tallied.failures, ?_, ?_⟩
  · rw [looped, handled]
    rfl
  · rw [failure_count_min tallied.log, List.length_map, List.countP_eq_length_filter]
  · intro traceId
    rw [find_trace_earliest tallied.log, ← List.map_take, List.find?_map]
    rfl

theorem pipeline_overflows (many : 2 ^ 31 ≤ packets.countP failing) :
    pipeline C S packets = .error .overflow := by
  obtain ⟨drained, emptied, first, items, _, _, carries, looped⟩ :=
    pipeline_worker_loop S positive fits room short known
  have count : items.length = packets.length := by
    rw [← carries, List.length_map]
  rw [looped, handle_all_overflow items tallied_start (by rw [List.length_nil]; omega) (by simp)
    (by rw [List.nil_append, carries]; exact many)]
  rfl

end

theorem one_slot_log_keeps_first_fault : ∃ done : Finished 3 1,
    pipeline 3 1 [⟨⟨4, 1004, 1⟩, [0xff]⟩, ⟨⟨5, 1005, 1⟩, []⟩, ⟨⟨4, 1006, 1⟩, [0xff, 0]⟩] =
      .ok done ∧ done.harness.worker.resetCount = 2 ∧
      done.harness.supervisor.findTrace 4 = some ⟨⟨4, 1004, 1⟩, 3, "fault-injected payload"⟩ := by
  have room : [(⟨⟨4, 1004, 1⟩, [0xff]⟩ : Packet), ⟨⟨5, 1005, 1⟩, []⟩,
      ⟨⟨4, 1006, 1⟩, [0xff, 0]⟩].length ≤ 3 := by decide
  obtain ⟨done, ran, _, _, _, _, resets, _, _, found⟩ := pipeline_isolates_faults 1 (by decide)
    (by decide) room (by decide) (by decide) (by decide)
  refine ⟨done, ran, ?_, ?_⟩
  · rw [resets]
    decide
  · rw [found]
    decide

/-- A context of another node, or an i32 count of failures past its range. -/
theorem pipeline_panics :
    pipeline 1 1 [⟨⟨7, 1007, 2⟩, [1]⟩] = .error .assertionFailed ∧
      pipeline (2 ^ 31) 1 (List.replicate (2 ^ 31) ⟨⟨7, 1007, 1⟩, [0xff]⟩) =
        .error .overflow := by
  constructor
  · apply pipeline_refuses_foreign 1 1 (by decide) (by decide) (by decide) (by decide)
    exact ⟨_, List.mem_singleton_self _, by decide⟩
  · have only : ∀ p ∈ List.replicate (2 ^ 31) (⟨⟨7, 1007, 1⟩, [0xff]⟩ : Packet),
        p = ⟨⟨7, 1007, 1⟩, [0xff]⟩ := by
      intro p member
      exact List.eq_of_mem_replicate member
    apply pipeline_overflows 1 (by decide) (by decide)
    · exact Nat.le_of_eq List.length_replicate
    · intro p member
      rw [only p member]
      decide
    · intro p member
      rw [only p member]
      decide
    · rw [List.countP_replicate]
      decide

end CellPipeline
