import CellKernel.QueueChecks

/-
What a call of is_empty or is_full tells about the instants between its start
and its end, when both counters may move between its two loads.
-/
namespace CellChecks
open CellRuns CellQueue CellInterleaving
variable {Observer T : Type} {CAP : Nat}

/-- The result was the truth at some instant of the call. -/
def Linearized (CAP : Nat) (answer : Answer Observer) : Prop :=
  ∃ instant ∈ answer.instants,
    answer.check.answer CAP instant.1 instant.2 = answer.result

instance (answer : Answer Observer) : Decidable (Linearized CAP answer) :=
  inferInstanceAs (Decidable (∃ _ ∈ _, _))

structure Loaded (w : World Unit Unit T CAP) (caller : Caller Observer) (check : Check)
    (head : UInt64) (instants : List Instant) (pushed : Nat) : Prop where
  current : w.published ∈ instants
  flipped : (∃ instant ∈ instants, check.answer CAP instant.1 instant.2 = false) ∨
    (head = w.queue.head ∧ check.answer CAP head w.queue.tail = true)
  head_count : head.toNat = pushed % 2 ^ 64
  pushed_le : pushed ≤ w.accepted.length
  producer : caller = .producer → pushed = w.accepted.length
  popped : ∃ popped, popped ≤ pushed ∧ pushed ≤ popped + CAP ∧ popped ≤ w.returned.length ∧
    (w.returned.length = popped → (head, w.queue.tail) ∈ instants) ∧
    (caller = .consumer → w.returned.length = popped)

def InCall (w : World Unit Unit T CAP) (caller : Caller Observer) : CheckPc → Prop
  | .idle => True
  | .called _ instants => w.published ∈ instants
  | .headLoaded check head instants pushed => Loaded w caller check head instants pushed

/-- What holds of every returned call. An is_empty of an observer that returns
    true may not be linearized; it tells that the items published at its first
    load were all popped, and no others, at its second. -/
structure Sound (CAP : Nat) (answer : Answer Observer) : Prop where
  refused : answer.result = false → Linearized CAP answer
  owner : answer.caller = .producer ∨ answer.caller = .consumer → Linearized CAP answer
  full : answer.check = .isFull → answer.pushed + CAP < 2 ^ 64 → Linearized CAP answer
  emptied : answer.check = .isEmpty → answer.result = true → answer.pushed < 2 ^ 64 →
    answer.popped = answer.pushedBefore
  unmoved : answer.pushed = answer.pushedBefore → Linearized CAP answer

theorem succ_ne (counter : UInt64) : counter + 1 ≠ counter := by
  intro same
  have values := congrArg UInt64.toNat same
  have fits := counter.toNat_lt
  rw [UInt64.toNat_add] at values
  simp only [UInt64.reduceToNat] at values
  omega

theorem flips (check : Check) {head tail : UInt64}
    (holds : check.answer CAP head tail = true) :
    check.answer CAP (head + 1) tail = false ∧ check.answer CAP head (tail + 1) = false := by
  cases check with
  | isEmpty =>
    simp only [Check.answer, beq_iff_eq] at holds
    subst tail
    simp only [Check.answer, beq_eq_false_iff_ne]
    exact ⟨succ_ne head, (succ_ne head).symm⟩
  | isFull =>
    simp only [Check.answer, countersFull, beq_iff_eq, beq_eq_false_iff_ne] at holds ⊢
    have headFits := head.toNat_lt
    have tailFits := tail.toNat_lt
    rw [UInt64.toNat_sub] at holds
    rw [UInt64.toNat_sub, UInt64.toNat_sub, UInt64.toNat_add, UInt64.toNat_add]
    simp only [UInt64.reduceToNat]
    omega

section
variable {w v : World Unit Unit T CAP} {caller : Caller Observer} {check : Check}
  {head : UInt64} {instants : List Instant} {pushed : Nat}

theorem loaded_step (counters : Counters w)
    (loaded : Loaded w caller check head instants pushed) {a : Action Unit Unit T}
    (other : caller ≠ partyOf a) (ran : step w a = some v) :
    Loaded v caller check head (instants ++ [v.published]) pushed := by
  have here : v.published ∈ instants ++ [v.published] :=
    List.mem_append_right _ List.mem_cons_self
  obtain ⟨popped, before, room, upto, unpopped, consumer⟩ := loaded.popped
  have pushedLe := loaded.pushed_le
  cases published_step counters ran with
  | quiet unpublished unreleased same accepted returned =>
    have sameHead : v.queue.head = w.queue.head := congrArg Prod.fst same
    have sameTail : v.queue.tail = w.queue.tail := congrArg Prod.snd same
    constructor
    · exact here
    · rw [sameHead, sameTail]
      rcases loaded.flipped with ⟨instant, member, wrong⟩ | still
      · exact Or.inl ⟨instant, List.mem_append_left _ member, wrong⟩
      · exact Or.inr still
    · exact loaded.head_count
    · omega
    · intro isProducer
      rw [accepted, loaded.producer isProducer]
    · rw [returned, sameTail]
      exact ⟨popped, before, room, upto, fun still => List.mem_append_left _ (unpopped still),
        consumer⟩
  | push moved accepted returned =>
    have sameTail : v.queue.tail = w.queue.tail := congrArg Prod.snd moved
    constructor
    · exact here
    · left
      rcases loaded.flipped with ⟨instant, member, wrong⟩ | ⟨sameHead, holds⟩
      · exact ⟨instant, List.mem_append_left _ member, wrong⟩
      · rw [sameHead] at holds
        refine ⟨v.published, here, ?_⟩
        rw [moved]
        exact (flips check holds).1
    · exact loaded.head_count
    · omega
    · intro isProducer
      exact absurd isProducer other
    · rw [returned, sameTail]
      exact ⟨popped, before, room, upto, fun still => List.mem_append_left _ (unpopped still),
        consumer⟩
  | pop moved accepted returned =>
    constructor
    · exact here
    · left
      rcases loaded.flipped with ⟨instant, member, wrong⟩ | ⟨sameHead, holds⟩
      · exact ⟨instant, List.mem_append_left _ member, wrong⟩
      · rw [sameHead] at holds
        refine ⟨v.published, here, ?_⟩
        rw [moved]
        exact (flips check holds).2
    · exact loaded.head_count
    · omega
    · intro isProducer
      rw [accepted, loaded.producer isProducer]
    · rw [returned]
      refine ⟨popped, before, room, by omega, ?_, ?_⟩
      · intro still
        omega
      · intro isConsumer
        exact absurd isConsumer other

theorem loaded_head (counters : Counters w) (caller : Caller Observer) (check : Check)
    (current : w.published ∈ instants) :
    Loaded w caller check w.queue.head instants w.accepted.length := by
  have behind := counters.behind
  have bounded := counters.bounded
  constructor
  · exact current
  · cases truth : check.answer CAP w.queue.head w.queue.tail with
    | false => exact Or.inl ⟨w.published, current, truth⟩
    | true => exact Or.inr ⟨rfl, rfl⟩
  · exact counters.head_eq
  · exact Nat.le_refl _
  · intro _
    rfl
  · exact ⟨w.returned.length, behind, bounded, Nat.le_refl _, fun _ => current, fun _ => rfl⟩

/-- Where nothing was published since the first load, the end is an instant of
    the loaded pair. -/
theorem unmoved_head (counters : Counters w)
    (loaded : Loaded w caller check head instants pushed) (same : pushed = w.accepted.length) :
    head = w.queue.head := by
  apply UInt64.toNat_inj.mp
  rw [loaded.head_count, counters.head_eq, same]

theorem loaded_sound (counters : Counters w)
    (loaded : Loaded w caller check head instants pushed) :
    Sound CAP ⟨caller, check, check.answer CAP head w.queue.tail, instants, pushed,
      w.accepted.length, w.returned.length⟩ := by
  obtain ⟨popped, before, room, upto, unpopped, consumer⟩ := loaded.popped
  have behind := counters.behind
  have pushedLe := loaded.pushed_le
  have headCount := loaded.head_count
  have tailCount := counters.tail_eq
  have unmoved : pushed = w.accepted.length → ∃ instant ∈ instants,
      check.answer CAP instant.1 instant.2 = check.answer CAP head w.queue.tail := by
    intro same
    refine ⟨w.published, loaded.current, ?_⟩
    rw [unmoved_head counters loaded same]
    rfl
  have released : w.returned.length = popped → ∃ instant ∈ instants,
      check.answer CAP instant.1 instant.2 = check.answer CAP head w.queue.tail := by
    intro still
    exact ⟨(head, w.queue.tail), unpopped still, rfl⟩
  have refused : check.answer CAP head w.queue.tail = false → ∃ instant ∈ instants,
      check.answer CAP instant.1 instant.2 = check.answer CAP head w.queue.tail := by
    intro wrong
    rcases loaded.flipped with ⟨instant, member, before⟩ | ⟨_, holds⟩
    · exact ⟨instant, member, before.trans wrong.symm⟩
    · rw [wrong] at holds
      cases holds
  constructor
  · exact refused
  · rintro (isProducer | isConsumer)
    · exact unmoved (loaded.producer isProducer)
    · exact released (consumer isConsumer)
  · intro isFull short
    simp only at isFull short
    subst check
    cases truth : countersFull CAP head w.queue.tail with
    | false => exact refused truth
    | true =>
      -- Counters below 2^64 - CAP differ by CAP only without a wrap: nothing was popped.
      rw [countersFull, beq_iff_eq, UInt64.toNat_sub] at truth
      exact released (by omega)
  · intro isEmpty holds short
    simp only at isEmpty holds short ⊢
    subst check
    simp only [Check.answer, beq_iff_eq] at holds
    rw [← holds] at tailCount
    omega
  · intro same
    exact unmoved same.symm

end

section
variable [DecidableEq Observer]

structure Snapshots (s : Checked Observer T CAP) : Prop where
  inCall : ∀ caller, InCall s.world caller (s.calls caller)
  sound : ∀ answer, .answered answer ∈ s.log → Sound CAP answer

omit [DecidableEq Observer] in
theorem in_call_step {w v : World Unit Unit T CAP} (counters : Counters w)
    {caller : Caller Observer} {pc : CheckPc} (inCall : InCall w caller pc)
    {a : Action Unit Unit T} (other : caller ≠ partyOf a ∨ pc = .idle)
    (ran : step w a = some v) : InCall v caller (pc.witness v.published) := by
  cases pc with
  | idle => trivial
  | called check instants => exact List.mem_append_right _ List.mem_cons_self
  | headLoaded check head instants pushed =>
    exact loaded_step counters inCall (other.resolve_right (by simp)) ran

theorem in_call_moved {s : Checked Observer T CAP}
    (inCall : ∀ caller, InCall s.world caller (s.calls caller)) {caller : Caller Observer}
    {pc : CheckPc} (moved : InCall s.world caller pc) (c : Caller Observer) :
    InCall s.world c (Function.update s.calls caller pc c) := by
  by_cases same : c = caller
  · subst c
    rw [Function.update_self]
    exact moved
  · rw [Function.update_of_ne same]
    exact inCall c

omit [DecidableEq Observer] in
theorem outcome_unanswered (w : World Unit Unit T CAP) (a : Action Unit Unit T)
    (answer : Answer Observer) : .answered answer ∉ (outcome w a).toList := by
  cases a with
  | pushCheck p =>
    simp only [outcome]
    split
    · split <;> simp
    · simp
  | popCheck c =>
    simp only [outcome]
    split
    · split <;> simp
    · simp
  | _ => simp [outcome]

theorem snapshots_step {s t : Checked Observer T CAP}
    (counters : Counters s.world) (snapshots : Snapshots s) {a : CheckAction Observer T}
    (taken : checkStep s a = some t) : Snapshots t := by
  cases a with
  | queue a =>
    obtain ⟨free, v, ran, rfl⟩ := queue_cases taken
    constructor
    · intro caller
      apply in_call_step counters (snapshots.inCall caller) _ ran
      by_cases same : caller = partyOf a
      · rw [same]
        exact Or.inr free
      · exact Or.inl same
    · intro answer member
      rcases List.mem_append.mp member with earlier | new
      · exact snapshots.sound answer earlier
      · exact absurd new (outcome_unanswered s.world a answer)
  | call caller check =>
    obtain ⟨_, _, rfl⟩ := call_cases taken
    have began : InCall s.world caller (.called check [s.world.published]) := List.mem_cons_self
    constructor
    · exact in_call_moved snapshots.inCall began
    · exact snapshots.sound
  | load caller =>
    have inCall := snapshots.inCall caller
    rcases load_cases taken with
      ⟨check, instants, here, rfl⟩ | ⟨_, head, instants, pushed, here, rfl⟩
    · rw [here] at inCall
      constructor
      · exact in_call_moved snapshots.inCall (loaded_head counters caller check inCall)
      · exact snapshots.sound
    · rw [here] at inCall
      have ended : InCall s.world caller .idle := trivial
      constructor
      · exact in_call_moved snapshots.inCall ended
      · intro answer member
        rcases List.mem_append.mp member with earlier | new
        · exact snapshots.sound answer earlier
        · rw [List.mem_singleton, QueueEvent.answered.injEq] at new
          rw [new]
          exact loaded_sound counters inCall

theorem snapshots_reachable (fits : CAP < 2 ^ 64) {s : Checked Observer T CAP}
    (reached : Reachable checkStep Checked.new s) : Snapshots s := by
  induction reached with
  | start =>
    constructor
    · intro caller
      trivial
    · intro answer member
      cases member
  | next a before _ taken ih => exact snapshots_step (checked_counters fits before) ih taken

/-- What every returned call tells, in runs of any length: the answers of the
    producer and the consumer, the answer false, and is_full while the counters
    are far from their wrap are the truth at an instant of the call. -/
theorem check_answers_sound (fits : CAP < 2 ^ 64) {s : Checked Observer T CAP}
    (reached : Reachable checkStep Checked.new s) {answer : Answer Observer}
    (returned : .answered answer ∈ s.log) :
    (answer.result = false → Linearized CAP answer) ∧
      (answer.caller = .producer ∨ answer.caller = .consumer → Linearized CAP answer) ∧
      (answer.check = .isFull → answer.pushed + CAP < 2 ^ 64 → Linearized CAP answer) ∧
      (answer.pushed = answer.pushedBefore → Linearized CAP answer) ∧
      (answer.check = .isEmpty → answer.result = true → answer.pushed < 2 ^ 64 →
        answer.popped = answer.pushedBefore) := by
  have sound := (snapshots_reachable fits reached).sound answer returned
  exact ⟨sound.refused, sound.owner, sound.full, sound.unmoved, sound.emptied⟩

end

def pushSteps (item : Nat) : List (CheckAction Unit Nat) :=
  [.queue (.pushLoad () item), .queue (.pushCheck ()), .queue (.pushWrite ()),
    .queue (.pushPublish ())]

def popSteps : List (CheckAction Unit Nat) :=
  [.queue (.popLoad ()), .queue (.popCheck ()), .queue (.popRead () 0), .queue (.popRelease ())]

/-- An observer loads head, waits for a push and a pop, and loads tail. -/
def betweenLoads (check : Check) : List (CheckAction Unit Nat) :=
  [.call (.observer ()) check, .load (.observer ())] ++ pushSteps 8 ++ popSteps ++
    [.load (.observer ())]

/-- True at capacity 2, with one or two items in the queue throughout. -/
def neverEmpty : Answer Unit :=
  ⟨.observer (), .isEmpty, true, [(1, 0), (1, 0), (1, 0), (1, 0), (2, 0), (2, 0), (2, 0), (2, 0),
    (2, 1)], 1, 2, 1⟩

/-- True at capacity 2^64 - 1, with at most one item in the queue throughout. -/
def neverFull : Answer Unit :=
  ⟨.observer (), .isFull, true, [(0, 0), (0, 0), (0, 0), (0, 0), (1, 0), (1, 0), (1, 0), (1, 0),
    (1, 1)], 0, 1, 1⟩

theorem never_empty_reached : ∃ s : Checked Unit Nat 2, Reachable checkStep Checked.new s ∧
    s.world.accepted.length < 2 ^ 64 ∧ .answered neverEmpty ∈ s.log := by
  have ran : (run checkStep (fun _ _ => True) (Checked.new : Checked Unit Nat 2)
      (pushSteps 7 ++ betweenLoads .isEmpty)).map (fun s =>
        decide (s.world.accepted.length = 2 ∧ .answered neverEmpty ∈ s.log)) = some true := by
    decide
  obtain ⟨s, reached, shows⟩ := reaches_showing _ _ ran
  obtain ⟨accepted, returned⟩ := of_decide_eq_true shows
  exact ⟨s, reached, by rw [accepted]; decide, returned⟩

theorem never_full_reached : ∃ s : Checked Unit Nat 18446744073709551615,
    Reachable checkStep Checked.new s ∧ s.world.accepted.length < 2 ^ 64 ∧
      .answered neverFull ∈ s.log := by
  have ran : (run checkStep (fun _ _ => True) (Checked.new : Checked Unit Nat 18446744073709551615)
      (betweenLoads .isFull)).map (fun s =>
        decide (s.world.accepted.length = 1 ∧ .answered neverFull ∈ s.log)) = some true := by
    decide +kernel
  obtain ⟨s, reached, shows⟩ := reaches_showing _ _ ran
  obtain ⟨accepted, returned⟩ := of_decide_eq_true shows
  exact ⟨s, reached, by rw [accepted]; decide, returned⟩

/-- The observer's answer that is not the truth at any instant still counts the
    one item that was published at its first load. -/
theorem check_answers_sound_observer : ∃ s : Checked Unit Nat 2,
    Reachable checkStep Checked.new s ∧ .answered neverEmpty ∈ s.log ∧
      neverEmpty.popped = neverEmpty.pushedBefore := by
  obtain ⟨s, reached, _, returned⟩ := never_empty_reached
  have told := (check_answers_sound (by decide) reached returned).2.2.2.2
  exact ⟨s, reached, returned, told rfl rfl (by decide)⟩

/-- Either check of an observer can return true though its statement was false
    from the start of the call to its end. -/
theorem observer_misled :
    ((∃ s : Checked Unit Nat 2, Reachable checkStep Checked.new s ∧
        .answered neverEmpty ∈ s.log) ∧ ¬ Linearized 2 neverEmpty) ∧
    ((∃ s : Checked Unit Nat 18446744073709551615, Reachable checkStep Checked.new s ∧
        .answered neverFull ∈ s.log) ∧ ¬ Linearized 18446744073709551615 neverFull) ∧
    ¬ ∀ (CAP : Nat) (s : Checked Unit Nat CAP) (answer : Answer Unit), 0 < CAP → CAP < 2 ^ 64 →
      Reachable checkStep Checked.new s → s.world.accepted.length < 2 ^ 64 →
        .answered answer ∈ s.log → Linearized CAP answer := by
  have unempty : ¬ Linearized 2 neverEmpty := by decide
  have unfull : ¬ Linearized 18446744073709551615 neverFull := by decide
  obtain ⟨s, reached, short, returned⟩ := never_empty_reached
  obtain ⟨t, reachedFull, _, returnedFull⟩ := never_full_reached
  refine ⟨⟨⟨s, reached, returned⟩, unempty⟩, ⟨⟨t, reachedFull, returnedFull⟩, unfull⟩, ?_⟩
  intro every
  exact unempty (every 2 s neverEmpty (by decide) (by decide) reached short returned)

end CellChecks
