import CellKernel.QueueSnapshots

/-
What a check tells its owner. The consumer alone empties the queue and the
producer alone fills it, so an answer that only the caller's own operation can
change stays true until that operation publishes.
-/
namespace CellChecks
open CellRuns CellQueue CellInterleaving EventLog
variable {Observer T : Type} {CAP : Nat}

def Told (caller : Caller Observer) (check : Check) (result : Bool) : QueueEvent Observer → Prop
  | .answered answer => answer.caller = caller ∧ answer.check = check ∧ answer.result = result
  | _ => False

def IsPop (event : QueueEvent Observer) : Prop := ∃ found, event = .popped found
def IsPush (event : QueueEvent Observer) : Prop := ∃ ok, event = .pushed ok

def HasItem (s : Checked Observer T CAP) : Prop :=
  s.world.returned.length < s.world.accepted.length

def HasRoom (s : Checked Observer T CAP) : Prop :=
  s.world.accepted.length < s.world.returned.length + CAP

def Drained (s : Checked Observer T CAP) : Prop :=
  s.world.accepted.length = s.world.returned.length

def Filled (s : Checked Observer T CAP) : Prop :=
  s.world.accepted.length = s.world.returned.length + CAP

section
variable [DecidableEq Observer]

/-- An event comes from the step of a push or pop that returns, or from the
    second load of a call. -/
theorem event_cases {s t : Checked Observer T CAP} {a : CheckAction Observer T}
    {event : QueueEvent Observer} (taken : checkStep s a = some t)
    (grown : t.log = s.log ++ [event]) :
    (∃ action, outcome s.world action = some event) ∨
      ∃ caller check head instants pushed,
        s.calls caller = .headLoaded check head instants pushed ∧ t.world = s.world ∧
          event = .answered ⟨caller, check, check.answer CAP head s.world.queue.tail, instants,
            pushed, s.world.accepted.length, s.world.returned.length⟩ := by
  cases a with
  | queue a =>
    obtain ⟨_, v, _, rfl⟩ := queue_cases taken
    have new := List.append_cancel_left grown
    exact Or.inl ⟨a, Option.toList_eq_singleton_iff.mp new⟩
  | call caller check =>
    obtain ⟨_, _, rfl⟩ := call_cases taken
    simp [Checked.moveCall] at grown
  | load caller =>
    rcases load_cases taken with
      ⟨check, instants, _, rfl⟩ | ⟨check, head, instants, pushed, here, rfl⟩
    · simp [Checked.moveCall] at grown
    · have new := List.append_cancel_left grown
      rw [List.singleton_inj] at new
      exact Or.inr ⟨caller, check, head, instants, pushed, here, rfl, new.symm⟩

theorem count_cases {s t : Checked Observer T CAP} {a : CheckAction Observer T}
    (counters : Counters s.world) (taken : checkStep s a = some t) :
    (t.world.accepted.length = s.world.accepted.length ∧
        t.world.returned.length = s.world.returned.length) ∨
      (t.world.accepted.length = s.world.accepted.length + 1 ∧
        t.world.returned.length = s.world.returned.length ∧
          t.log = s.log ++ [.pushed true]) ∨
      (t.world.accepted.length = s.world.accepted.length ∧
        t.world.returned.length = s.world.returned.length + 1 ∧
          t.log = s.log ++ [.popped true]) := by
  cases a with
  | queue a =>
    obtain ⟨_, v, ran, rfl⟩ := queue_cases taken
    cases published_step counters ran with
    | quiet _ _ _ accepted returned => exact Or.inl ⟨accepted, returned⟩
    | push _ accepted returned => exact Or.inr (Or.inl ⟨accepted, returned, rfl⟩)
    | pop _ accepted returned => exact Or.inr (Or.inr ⟨accepted, returned, rfl⟩)
  | call caller check =>
    obtain ⟨_, _, rfl⟩ := call_cases taken
    exact Or.inl ⟨rfl, rfl⟩
  | load caller =>
    rcases load_cases taken with ⟨check, instants, _, rfl⟩ | ⟨_, head, instants, pushed, _, rfl⟩
    · exact Or.inl ⟨rfl, rfl⟩
    · exact Or.inl ⟨rfl, rfl⟩

omit [DecidableEq Observer] in
theorem none_outcome {w : World Unit Unit T CAP} {a : Action Unit Unit T}
    (returned : outcome w a = some (.popped false : QueueEvent Observer)) :
    w.popper () = .loaded w.queue.head := by
  cases a with
  | popCheck c =>
    simp only [outcome] at returned
    split at returned
    · rename_i tail here
      split at returned
      · rename_i empty
        rw [here, empty]
      · cases returned
    · cases returned
  | pushCheck p =>
    simp only [outcome] at returned
    split at returned
    · split at returned <;> simp at returned
    · cases returned
  | _ => simp [outcome] at returned

omit [DecidableEq Observer] in
theorem full_outcome {w : World Unit Unit T CAP} {a : Action Unit Unit T}
    (returned : outcome w a = some (.pushed false : QueueEvent Observer)) :
    ∃ item head, w.pusher () = .loaded item head ∧
      countersFull CAP head w.queue.tail = true := by
  cases a with
  | pushCheck p =>
    simp only [outcome] at returned
    split at returned
    · rename_i item head here
      split at returned
      · rename_i full
        exact ⟨item, head, here, full⟩
      · cases returned
    · cases returned
  | popCheck c =>
    simp only [outcome] at returned
    split at returned
    · split at returned <;> simp at returned
    · cases returned
  | _ => simp [outcome] at returned

section
variable {s t : Checked Observer T CAP} {a : CheckAction Observer T} (fits : CAP < 2 ^ 64)
  (counters : Counters s.world) (taken : checkStep s a = some t)
include fits counters taken

theorem refused_pop (grown : t.log = s.log ++ [.popped false]) : Drained s := by
  rcases event_cases taken grown with ⟨action, returned⟩ | ⟨_, _, _, _, _, _, _, answered⟩
  · have here := none_outcome returned
    have current := counters.pop_current s.world.queue.head (by rw [here]; rfl)
    exact (published_empty_iff counters fits).mp current.symm
  · cases answered

theorem refused_push (grown : t.log = s.log ++ [.pushed false]) : Filled s := by
  rcases event_cases taken grown with ⟨action, returned⟩ | ⟨_, _, _, _, _, _, _, answered⟩
  · obtain ⟨item, head, here, full⟩ := full_outcome returned
    have current := counters.push_current head (by rw [here]; rfl)
    rw [current] at full
    exact (published_full_iff counters fits).mp full
  · cases answered

end

section
variable {s t : Checked Observer T CAP} {a : CheckAction Observer T}
  {event : QueueEvent Observer} (fits : CAP < 2 ^ 64)
  (reached : Reachable checkStep Checked.new s) (taken : checkStep s a = some t)
  (grown : t.log = s.log ++ [event])
include fits reached taken grown

/-- What the loaded value tells about the queue at the second load: of the
    caller's own counter it is the current one. -/
theorem told_loaded {caller : Caller Observer} {check : Check} {result : Bool}
    (told : Told caller check result event) :
    t.world = s.world ∧ ∃ head pushed,
      result = check.answer CAP head s.world.queue.tail ∧ head.toNat = pushed % 2 ^ 64 ∧
        pushed ≤ s.world.accepted.length ∧
        (caller = .producer → head = s.world.queue.head) ∧
        (caller = .consumer →
          s.world.returned.length ≤ pushed ∧ pushed ≤ s.world.returned.length + CAP) := by
  rcases event_cases taken grown with
    ⟨action, returned⟩ | ⟨owner, check', head, instants, pushed, here, same, answered⟩
  · cases event with
    | pushed ok => cases told
    | popped found => cases told
    | answered answer =>
      have silent := outcome_unanswered s.world action answer
      rw [returned] at silent
      exact absurd List.mem_cons_self silent
  · subst event
    obtain ⟨rfl, rfl, rfl⟩ := told
    have loaded := (snapshots_reachable fits reached).inCall owner
    rw [here] at loaded
    obtain ⟨popped, before, room, _, _, consumer⟩ := loaded.popped
    refine ⟨same, head, pushed, rfl, loaded.head_count, loaded.pushed_le, ?_, ?_⟩
    · intro isProducer
      exact unmoved_head (checked_counters fits reached) loaded (loaded.producer isProducer)
    · intro isConsumer
      rw [consumer isConsumer]
      exact ⟨before, room⟩

theorem told_item (told : Told .consumer .isEmpty false event) : HasItem t := by
  obtain ⟨same, head, pushed, result, headCount, upto, _, consumer⟩ :=
    told_loaded fits reached taken grown told
  obtain ⟨before, _⟩ := consumer rfl
  have tailCount := (checked_counters fits reached).tail_eq
  rw [eq_comm, Check.answer, beq_eq_false_iff_ne, Ne, ← UInt64.toNat_inj] at result
  rw [HasItem, same]
  by_contra drained
  have level : pushed = s.world.returned.length := by omega
  rw [headCount, tailCount, level] at result
  exact result rfl

theorem told_room (told : Told .producer .isFull false event) : HasRoom t := by
  obtain ⟨same, head, pushed, result, _, _, current, _⟩ :=
    told_loaded fits reached taken grown told
  have counters := checked_counters fits reached
  have bounded := counters.bounded
  rw [eq_comm, current rfl, Check.answer, ← Bool.not_eq_true, published_full_iff counters fits]
    at result
  rw [HasRoom, same]
  omega

theorem told_drained (told : Told .producer .isEmpty true event) : Drained t := by
  obtain ⟨same, head, pushed, result, _, _, current, _⟩ :=
    told_loaded fits reached taken grown told
  have counters := checked_counters fits reached
  rw [eq_comm, current rfl, Check.answer, beq_iff_eq, eq_comm, published_empty_iff counters fits]
    at result
  rw [Drained, same]
  exact result

theorem told_filled (told : Told .consumer .isFull true event) : Filled t := by
  obtain ⟨same, head, pushed, result, headCount, upto, _, consumer⟩ :=
    told_loaded fits reached taken grown told
  obtain ⟨before, room⟩ := consumer rfl
  have counters := checked_counters fits reached
  have bounded := counters.bounded
  have level : head.toNat =
      (s.world.returned.length + (pushed - s.world.returned.length)) % 2 ^ 64 := by
    rw [headCount]
    congr 1
    omega
  rw [eq_comm, Check.answer, counters_full_iff fits counters.tail_eq level (by omega)] at result
  rw [Filled, same]
  omega

end

section
variable {s : Checked Observer T CAP} (fits : CAP < 2 ^ 64)
  (reached : Reachable checkStep Checked.new s)
include fits reached

/-- Until the consumer's next pop returns. -/
theorem item_since (told : Since (Told .consumer .isEmpty false) IsPop s.log) : HasItem s := by
  apply holds_since rfl (fun _ _ _ => check_appends) _ _ reached told
  · intro s a t event reached taken grown told
    exact told_item fits reached taken grown told
  · intro s a t reached more taken unended
    unfold HasItem at more ⊢
    rcases count_cases (checked_counters fits reached) taken with
      ⟨accepted, returned⟩ | ⟨accepted, returned, _⟩ | ⟨_, _, grown⟩
    · omega
    · omega
    · exact absurd ⟨true, rfl⟩ (unended _ grown)

/-- Until the producer's next push returns. -/
theorem room_since (told : Since (Told .producer .isFull false) IsPush s.log) : HasRoom s := by
  apply holds_since rfl (fun _ _ _ => check_appends) _ _ reached told
  · intro s a t event reached taken grown told
    exact told_room fits reached taken grown told
  · intro s a t reached room taken unended
    unfold HasRoom at room ⊢
    rcases count_cases (checked_counters fits reached) taken with
      ⟨accepted, returned⟩ | ⟨_, _, grown⟩ | ⟨accepted, returned, _⟩
    · omega
    · exact absurd ⟨true, rfl⟩ (unended _ grown)
    · omega

/-- Until the producer publishes. A pop that is under way returns None. -/
theorem drained_since (told : Since (Told .producer .isEmpty true) (· = .pushed true) s.log) :
    Drained s := by
  apply holds_since rfl (fun _ _ _ => check_appends) _ _ reached told
  · intro s a t event reached taken grown told
    exact told_drained fits reached taken grown told
  · intro s a t reached empty taken unended
    have behind := (checked_counters fits (.next a reached trivial taken)).behind
    unfold Drained at empty ⊢
    rcases count_cases (checked_counters fits reached) taken with
      ⟨accepted, returned⟩ | ⟨_, _, grown⟩ | ⟨accepted, returned, _⟩
    · omega
    · exact absurd rfl (unended _ grown)
    · omega

/-- Until the consumer publishes. A push that is under way returns QueueFull. -/
theorem filled_since (told : Since (Told .consumer .isFull true) (· = .popped true) s.log) :
    Filled s := by
  apply holds_since rfl (fun _ _ _ => check_appends) _ _ reached told
  · intro s a t event reached taken grown told
    exact told_filled fits reached taken grown told
  · intro s a t reached full taken unended
    have bounded := (checked_counters fits (.next a reached trivial taken)).bounded
    unfold Filled at full ⊢
    rcases count_cases (checked_counters fits reached) taken with
      ⟨accepted, returned⟩ | ⟨accepted, returned, _⟩ | ⟨_, _, grown⟩
    · omega
    · omega
    · exact absurd rfl (unended _ grown)

end

def OwnStep (caller : Caller Observer) : CheckAction Observer T → Prop
  | .queue a => partyOf a = caller
  | _ => False

/-- By its own steps alone, whatever the other party was doing, the caller
    comes to the event. -/
def Returns (s : Checked Observer T CAP) (caller : Caller Observer)
    (event : QueueEvent Observer) : Prop :=
  ∃ t, Reaches checkStep (fun _ a => OwnStep caller a) s t ∧ t.log = s.log ++ [event]

theorem queue_step {s : Checked Observer T CAP} {a : Action Unit Unit T}
    {v : World Unit Unit T CAP} (free : s.calls (partyOf a) = .idle)
    (ran : step s.world a = some v) :
    checkStep s (.queue a) = some ⟨v, fun caller => (s.calls caller).witness v.published,
      s.log ++ (outcome s.world a).toList⟩ := by
  simp only [checkStep, free, ran]

theorem pop_own_step (Observer : Type) (positive : 0 < CAP) (fits : CAP < 2 ^ 64)
    {w : World Unit Unit T CAP} (counters : Counters w)
    (more : w.returned.length < w.accepted.length) :
    ∃ a v, partyOf a = (.consumer : Caller Observer) ∧ step w a = some v ∧
      (outcome w a = some (.popped true : QueueEvent Observer) ∨
        (outcome w a = (none : Option (QueueEvent Observer)) ∧
          (v.popper ()).left < (w.popper ()).left ∧
            v.returned.length < v.accepted.length)) := by
  cases here : w.popper () with
  | idle =>
    refine ⟨.popLoad (), w.movePopper () (.loaded w.queue.tail), rfl, ?_, Or.inr ⟨rfl, ?_, more⟩⟩
    · simp [step, here, Nat.ne_of_gt positive]
    · simp [PopPc.left]
  | loaded tail =>
    have current := counters.pop_current tail (by rw [here]; rfl)
    have unequal : tail ≠ w.queue.head := by
      rw [current, Ne, published_empty_iff counters fits]
      omega
    refine ⟨.popCheck (), w.movePopper () (.admitted tail), rfl, ?_, Or.inr ⟨?_, ?_, more⟩⟩
    · simp [step, here, unequal]
    · simp [outcome, here, unequal]
    · simp [PopPc.left]
  | admitted tail =>
    have garbage : T := w.accepted[w.returned.length]
    have inside : slotIndex CAP tail < CAP := Nat.mod_lt _ positive
    have enabled : ∃ v, step w (.popRead () garbage) = some v := by
      simp only [step, here, Vector.getElem?_eq_getElem inside]
      exact ⟨_, rfl⟩
    obtain ⟨v, ran⟩ := enabled
    refine ⟨.popRead () garbage, v, rfl, ran, Or.inr ⟨rfl, ?_⟩⟩
    obtain ⟨_, found, _, _, rfl⟩ := pop_read_cases ran
    refine ⟨?_, more⟩
    simp [PopPc.left]
  | taken item tail =>
    have enabled : ∃ v, step w (.popRelease ()) = some v := by
      simp only [step, here]
      exact ⟨_, rfl⟩
    obtain ⟨v, ran⟩ := enabled
    exact ⟨.popRelease (), v, rfl, ran, Or.inl rfl⟩

theorem push_own_step (Observer : Type) (positive : 0 < CAP) (fits : CAP < 2 ^ 64)
    {w : World Unit Unit T CAP} (counters : Counters w)
    (room : w.accepted.length < w.returned.length + CAP) (item : T) :
    ∃ a v, partyOf a = (.producer : Caller Observer) ∧ step w a = some v ∧
      (outcome w a = some (.pushed true : QueueEvent Observer) ∨
        (outcome w a = (none : Option (QueueEvent Observer)) ∧
          (v.pusher ()).left < (w.pusher ()).left ∧
            v.accepted.length < v.returned.length + CAP)) := by
  cases here : w.pusher () with
  | idle =>
    refine ⟨.pushLoad () item, w.movePusher () (.loaded item w.queue.head), rfl, ?_,
      Or.inr ⟨rfl, ?_, room⟩⟩
    · simp [step, here, Nat.ne_of_gt positive]
    · simp [PushPc.left]
  | loaded item head =>
    have current := counters.push_current head (by rw [here]; rfl)
    have unfilled : countersFull CAP head w.queue.tail = false := by
      rw [current, ← Bool.not_eq_true, published_full_iff counters fits]
      omega
    refine ⟨.pushCheck (), w.movePusher () (.admitted item head), rfl, ?_, Or.inr ⟨?_, ?_, room⟩⟩
    · simp [step, here, unfilled]
    · simp [outcome, here, unfilled]
    · simp [PushPc.left]
  | admitted item head =>
    have inside : slotIndex CAP head < CAP := Nat.mod_lt _ positive
    have enabled : ∃ v, step w (.pushWrite ()) = some v := by
      simp only [step, here, writeSlot, if_pos inside]
      exact ⟨_, rfl⟩
    obtain ⟨v, ran⟩ := enabled
    refine ⟨.pushWrite (), v, rfl, ran, Or.inr ⟨rfl, ?_⟩⟩
    obtain ⟨_, _, _, _, rfl⟩ := push_write_cases ran
    refine ⟨?_, room⟩
    simp [PushPc.left]
  | written item head =>
    have enabled : ∃ v, step w (.pushPublish ()) = some v := by
      simp only [step, here]
      exact ⟨_, rfl⟩
    obtain ⟨v, ran⟩ := enabled
    exact ⟨.pushPublish (), v, rfl, ran, Or.inl rfl⟩

/-- Own steps that keep a property and shorten the operation end in its event. -/
theorem returns_of_own_steps (fits : CAP < 2 ^ 64) {caller : Caller Observer}
    {event : QueueEvent Observer} (holds : World Unit Unit T CAP → Prop)
    (left : World Unit Unit T CAP → Nat)
    (own : ∀ w, Counters w → holds w → ∃ a v, partyOf a = caller ∧ step w a = some v ∧
      (outcome w a = some event ∨
        (outcome w a = (none : Option (QueueEvent Observer)) ∧ left v < left w ∧ holds v)))
    {s : Checked Observer T CAP} (counters : Counters s.world) (free : s.calls caller = .idle)
    (here : holds s.world) : Returns s caller event := by
  induction bound : left s.world using Nat.strongRecOn generalizing s with
  | ind n ih =>
    obtain ⟨a, v, owned, ran, next⟩ := own s.world counters here
    have taken := queue_step (by rw [owned]; exact free) ran
    have first : Reaches checkStep (fun _ a => OwnStep caller a) s _ :=
      .next (.queue a) .start owned taken
    rcases next with returned | ⟨silent, closer, hereNext⟩
    · rw [returned] at first
      exact ⟨_, first, rfl⟩
    · have freeNext : (s.calls caller).witness v.published = .idle := by
        rw [free]
        rfl
      obtain ⟨t, later, grown⟩ := ih (left v) (by rw [← bound]; exact closer)
        (s := ⟨v, fun caller => (s.calls caller).witness v.published,
          s.log ++ (outcome s.world a).toList⟩)
        (counters_step fits counters ran) freeNext hereNext rfl
      refine ⟨t, reaches_trans first later, ?_⟩
      rw [grown, silent, Option.toList_none, List.append_nil]

theorem pop_returns (positive : 0 < CAP) (fits : CAP < 2 ^ 64) {s : Checked Observer T CAP}
    (counters : Counters s.world) (free : s.calls .consumer = .idle) (more : HasItem s) :
    Returns s .consumer (.popped true) := by
  apply returns_of_own_steps fits (fun w => w.returned.length < w.accepted.length)
    (fun w => (w.popper ()).left) _ counters free more
  intro w counters more
  exact pop_own_step Observer positive fits counters more

theorem push_returns (positive : 0 < CAP) (fits : CAP < 2 ^ 64) {s : Checked Observer T CAP}
    (counters : Counters s.world) (free : s.calls .producer = .idle) (room : HasRoom s)
    (item : T) : Returns s .producer (.pushed true) := by
  apply returns_of_own_steps fits (fun w => w.accepted.length < w.returned.length + CAP)
    (fun w => (w.pusher ()).left) _ counters free room
  intro w counters room
  exact push_own_step Observer positive fits counters room item

/-- In runs of any length. A pop that returns after the consumer was told that
    the queue is not empty, with no pop between, returns Some, and it does
    return; so for a push after the producer was told that there is room. What
    the other two answers say holds until their owner publishes. -/
theorem owner_checks_stable (positive : 0 < CAP) (fits : CAP < 2 ^ 64)
    {s : Checked Observer T CAP} (reached : Reachable checkStep Checked.new s) :
    ((∀ before found after, s.log = before ++ .popped found :: after →
        Since (Told .consumer .isEmpty false) IsPop before → found = true) ∧
      (Since (Told .consumer .isEmpty false) IsPop s.log → s.calls .consumer = .idle →
        Returns s .consumer (.popped true))) ∧
    ((∀ before ok after, s.log = before ++ .pushed ok :: after →
        Since (Told .producer .isFull false) IsPush before → ok = true) ∧
      (Since (Told .producer .isFull false) IsPush s.log → s.calls .producer = .idle →
        Nonempty T → Returns s .producer (.pushed true))) ∧
    (Since (Told .producer .isEmpty true) (· = .pushed true) s.log →
      s.world.queue.head = s.world.queue.tail) ∧
    (Since (Told .consumer .isFull true) (· = .popped true) s.log →
      countersFull CAP s.world.queue.head s.world.queue.tail = true) := by
  have counters := checked_counters fits reached
  refine ⟨⟨?_, ?_⟩, ⟨?_, ?_⟩, ?_, ?_⟩
  · intro before found after split told
    obtain ⟨s', a, t, earlier, taken, here, grown⟩ :=
      appended_by rfl (fun _ _ _ => check_appends) reached split
    rw [← here] at told grown
    cases found with
    | true => rfl
    | false =>
      have more := item_since fits earlier told
      have empty := refused_pop fits (checked_counters fits earlier) taken grown
      unfold HasItem at more
      unfold Drained at empty
      omega
  · intro told free
    exact pop_returns positive fits counters free (item_since fits reached told)
  · intro before ok after split told
    obtain ⟨s', a, t, earlier, taken, here, grown⟩ :=
      appended_by rfl (fun _ _ _ => check_appends) reached split
    rw [← here] at told grown
    cases ok with
    | true => rfl
    | false =>
      have room := room_since fits earlier told
      have full := refused_push fits (checked_counters fits earlier) taken grown
      unfold HasRoom at room
      unfold Filled at full
      omega
  · rintro told free ⟨item⟩
    exact push_returns positive fits counters free (room_since fits reached told) item
  · intro told
    exact ((published_empty_iff counters fits).mpr (drained_since fits reached told)).symm
  · intro told
    exact (published_full_iff counters fits).mpr (filled_since fits reached told)

end

theorem owner_checks_stable_one_item :
    ∃ s : Checked Unit Nat 1, Reachable checkStep Checked.new s ∧
      s.log = [.pushed true, .answered ⟨.consumer, .isEmpty, false, [(1, 0)], 1, 1, 0⟩] ∧
        Returns s .consumer (.popped true) := by
  have ran : (run checkStep (fun _ _ => True) (Checked.new : Checked Unit Nat 1)
      (pushSteps 7 ++ [.call .consumer .isEmpty, .load .consumer, .load .consumer])).map (fun s =>
        decide (s.log = [.pushed true,
          .answered ⟨.consumer, .isEmpty, false, [(1, 0)], 1, 1, 0⟩] ∧
            s.calls .consumer = .idle)) = some true := by
    decide
  obtain ⟨s, reached, shows⟩ := reaches_showing _ _ ran
  obtain ⟨logged, free⟩ := of_decide_eq_true shows
  refine ⟨s, reached, logged, ?_⟩
  apply (owner_checks_stable (by decide) (by decide) reached).1.2
  · rw [logged]
    exact ⟨[.pushed true], _, [], rfl, ⟨rfl, rfl, rfl⟩, by simp⟩
  · exact free

end CellChecks
