import Mathlib.Data.Fintype.Basic
import Mathlib.Data.List.Infix
import CellKernel.QueueCounters

/-
Slot ownership under every interleaving. The invariant is kept by any number
of callers as long as each slot access is exclusive; one producer and one
consumer make every access exclusive by themselves.
-/
namespace CellInterleaving
open CellRuns CellRing CellQueue
variable {Pusher Popper T : Type} {CAP : Nat}

/-- At most one push is past its slot write, and the values stored are those
    accepted plus its own. -/
def PushSide (w : World Pusher Popper T CAP) : Prop :=
  (w.stored = w.accepted ∧ ∀ p, (w.pusher p).pastWrite = false) ∨
  ∃ p item, w.pusher p = .written item w.queue.head ∧ w.stored = w.accepted ++ [item] ∧
    ∀ other, other ≠ p → (w.pusher other).pastWrite = false

def PopSide (w : World Pusher Popper T CAP) : Prop :=
  (w.fetched = w.returned ∧ ∀ c, (w.popper c).pastRead = false) ∨
  ∃ c item, w.popper c = .taken item w.queue.tail ∧ w.fetched = w.returned ++ [item] ∧
    ∀ other, other ≠ c → (w.popper other).pastRead = false

structure Inv (w : World Pusher Popper T CAP) : Prop where
  head_eq : w.queue.head.toNat = w.accepted.length % 2 ^ 64
  tail_eq : w.queue.tail.toNat = w.returned.length % 2 ^ 64
  bounded : w.stored.length ≤ w.returned.length + CAP
  holds : Holds (2 ^ 64) w.queue.buffer w.fetched.length (w.stored.drop w.fetched.length)
  fetched_accepted : w.fetched <+: w.accepted
  pushes : PushSide w
  pops : PopSide w

/-- A slot is accessed only by the call that owns it: no other call of the kind
    is between its slot access and its counter store, the own counter has not
    moved since it was loaded, and the queue is not full (not empty). The write
    is also not the one that reuses a held slot at the wrap of the counters. -/
def Exclusive (w : World Pusher Popper T CAP) : Action Pusher Popper T → Prop
  | .pushWrite p =>
      (∀ other, (w.pusher other).pastWrite = false) ∧
      (w.pusher p).head = some w.queue.head ∧
      countersFull CAP w.queue.head w.queue.tail = false ∧
      ¬ Clashes (2 ^ 64) CAP w.fetched.length (w.stored.length - w.fetched.length)
  | .popRead c _ =>
      (∀ other, (w.popper other).pastRead = false) ∧
      (w.popper c).tail = some w.queue.tail ∧
      w.queue.tail ≠ w.queue.head
  | _ => True

instance [Fintype Pusher] [Fintype Popper] (w : World Pusher Popper T CAP)
    (a : Action Pusher Popper T) : Decidable (Exclusive w a) :=
  match a with
  | .pushWrite _ => inferInstanceAs (Decidable (_ ∧ _))
  | .popRead _ _ => inferInstanceAs (Decidable (_ ∧ _))
  | .pushLoad _ _ | .pushCheck _ | .pushPublish _ | .popLoad _ | .popCheck _ | .popRelease _ =>
      inferInstanceAs (Decidable True)

theorem inv_new : Inv (World.new : World Pusher Popper T CAP) :=
  ⟨rfl, rfl, Nat.zero_le _, holds_blank _ _, List.prefix_refl _, .inl ⟨rfl, fun _ => rfl⟩,
    .inl ⟨rfl, fun _ => rfl⟩⟩

section
variable {w : World Pusher Popper T CAP}

theorem push_side_length (side : PushSide w) : w.accepted.length ≤ w.stored.length := by
  rcases side with ⟨same, _⟩ | ⟨p, item, _, same, _⟩ <;> simp [same]

theorem returned_fetched (side : PopSide w) : w.returned <+: w.fetched := by
  rcases side with ⟨same, _⟩ | ⟨c, item, _, same, _⟩ <;> simp [same]

theorem accepted_stored (side : PushSide w) : w.accepted <+: w.stored := by
  rcases side with ⟨same, _⟩ | ⟨p, item, _, same, _⟩ <;> simp [same]

theorem returned_accepted (inv : Inv w) : w.returned <+: w.accepted :=
  (returned_fetched inv.pops).trans inv.fetched_accepted

/-- The published counters differ by the number of items accepted and not yet
    returned, which never exceeds the capacity. -/
theorem published_count (inv : Inv w) : ∃ count, count ≤ CAP ∧
    w.accepted.length = w.returned.length + count ∧
    w.queue.head.toNat = (w.returned.length + count) % 2 ^ 64 := by
  have lower := (returned_accepted inv).length_le
  have upper := push_side_length inv.pushes
  have bound := inv.bounded
  refine ⟨w.accepted.length - w.returned.length, by omega, by omega, ?_⟩
  rw [inv.head_eq]
  congr 1
  omega

theorem full_iff (fits : CAP < 2 ^ 64) (inv : Inv w) :
    countersFull CAP w.queue.head w.queue.tail = true ↔
      w.accepted.length = w.returned.length + CAP := by
  obtain ⟨count, bound, size, head⟩ := published_count inv
  rw [counters_full_iff fits inv.tail_eq head bound]
  omega

theorem empty_iff (fits : CAP < 2 ^ 64) (inv : Inv w) :
    w.queue.tail = w.queue.head ↔ w.accepted.length = w.returned.length := by
  obtain ⟨count, bound, size, head⟩ := published_count inv
  rw [counters_equal_iff inv.tail_eq head (by omega)]
  omega

theorem write_slot_blank (fits : CAP < 2 ^ 64) (inv : Inv w) {p : Pusher}
    (meets : Exclusive w (.pushWrite p)) :
    w.stored = w.accepted ∧ w.accepted.length < w.returned.length + CAP ∧
      slotIndex CAP w.queue.head = slot (2 ^ 64) CAP
        (w.fetched.length + (w.stored.drop w.fetched.length).length) ∧
      (w.stored.drop w.fetched.length).length < CAP := by
  obtain ⟨none, _, room, _⟩ := meets
  have same : w.stored = w.accepted := by
    rcases inv.pushes with ⟨same, _⟩ | ⟨q, item, at_written, _⟩
    · exact same
    · simpa [at_written, PushPc.pastWrite] using none q
  have notFull : w.accepted.length ≠ w.returned.length + CAP := by
    rw [← Bool.not_eq_true, full_iff fits inv] at room
    exact room
  obtain ⟨count, bound, size, _⟩ := published_count inv
  have first := (returned_fetched inv.pops).length_le
  have second := inv.fetched_accepted.length_le
  refine ⟨same, by omega, ?_, by rw [List.length_drop, same]; omega⟩
  rw [slot_index_eq inv.head_eq, List.length_drop, same]
  congr 1
  omega

theorem read_slot_oldest (fits : CAP < 2 ^ 64) (inv : Inv w) {c : Popper} {garbage : T}
    (meets : Exclusive w (.popRead c garbage)) :
    w.fetched = w.returned ∧ ∃ oldest rest,
      w.stored.drop w.fetched.length = oldest :: rest ∧
      w.accepted[w.returned.length]? = some oldest ∧
      w.queue.buffer[slotIndex CAP w.queue.tail]? = some (some oldest) ∧
      slotIndex CAP w.queue.tail = slot (2 ^ 64) CAP w.fetched.length := by
  obtain ⟨none, _, more⟩ := meets
  have same : w.fetched = w.returned := by
    rcases inv.pops with ⟨same, _⟩ | ⟨q, item, at_taken, _⟩
    · exact same
    · simpa [at_taken, PopPc.pastRead] using none q
  rw [Ne, empty_iff fits inv] at more
  have behind := (returned_accepted inv).length_le
  have inside : w.returned.length < w.accepted.length := by omega
  obtain ⟨tailItems, extended⟩ := accepted_stored inv.pushes
  have shape : w.stored.drop w.fetched.length =
      w.accepted[w.returned.length] :: (w.stored.drop (w.returned.length + 1)) := by
    have wide : w.returned.length < w.stored.length := by
      rw [← extended, List.length_append]
      omega
    rw [same, List.drop_eq_getElem_cons wide]
    congr 1
    simp only [← extended, List.getElem_append_left inside]
  have index : slotIndex CAP w.queue.tail = slot (2 ^ 64) CAP w.fetched.length := by
    rw [slot_index_eq inv.tail_eq, same]
  have holds := inv.holds
  rw [shape] at holds
  refine ⟨same, _, _, shape, by simp, ?_, index⟩
  rw [index]
  exact holds_oldest holds

end

section
variable [DecidableEq Pusher] [DecidableEq Popper] {w v : World Pusher Popper T CAP}

omit [DecidableEq Popper] in
theorem push_side_move {p : Pusher} {pc : PushPc T} (side : PushSide w)
    (before : (w.pusher p).pastWrite = false) (after : pc.pastWrite = false) :
    PushSide (w.movePusher p pc) := by
  have quiet : ∀ other, (w.pusher other).pastWrite = false →
      ((w.movePusher p pc).pusher other).pastWrite = false := by
    intro other unwritten
    by_cases same : other = p
    · subst other
      simpa using after
    · simpa [same] using unwritten
  rcases side with ⟨all, none⟩ | ⟨q, item, at_written, all, alone⟩
  · exact .inl ⟨all, fun other => quiet other (none other)⟩
  · have distinct : q ≠ p := by
      rintro rfl
      simp [at_written, PushPc.pastWrite] at before
    refine .inr ⟨q, item, ?_, all, fun other unequal => quiet other (alone other unequal)⟩
    simpa [distinct] using at_written

omit [DecidableEq Pusher] in
theorem pop_side_move {c : Popper} {pc : PopPc T} (side : PopSide w)
    (before : (w.popper c).pastRead = false) (after : pc.pastRead = false) :
    PopSide (w.movePopper c pc) := by
  have quiet : ∀ other, (w.popper other).pastRead = false →
      ((w.movePopper c pc).popper other).pastRead = false := by
    intro other unread
    by_cases same : other = c
    · subst other
      simpa using after
    · simpa [same] using unread
  rcases side with ⟨all, none⟩ | ⟨q, item, at_taken, all, alone⟩
  · exact .inl ⟨all, fun other => quiet other (none other)⟩
  · have distinct : q ≠ c := by
      rintro rfl
      simp [at_taken, PopPc.pastRead] at before
    refine .inr ⟨q, item, ?_, all, fun other unequal => quiet other (alone other unequal)⟩
    simpa [distinct] using at_taken

omit [DecidableEq Popper] in
theorem inv_move_pusher {p : Pusher} {pc : PushPc T} (inv : Inv w)
    (before : (w.pusher p).pastWrite = false) (after : pc.pastWrite = false) :
    Inv (w.movePusher p pc) :=
  ⟨inv.head_eq, inv.tail_eq, inv.bounded, inv.holds, inv.fetched_accepted,
    push_side_move inv.pushes before after, inv.pops⟩

omit [DecidableEq Pusher] in
theorem inv_move_popper {c : Popper} {pc : PopPc T} (inv : Inv w)
    (before : (w.popper c).pastRead = false) (after : pc.pastRead = false) :
    Inv (w.movePopper c pc) :=
  ⟨inv.head_eq, inv.tail_eq, inv.bounded, inv.holds, inv.fetched_accepted, inv.pushes,
    pop_side_move inv.pops before after⟩

theorem inv_push_write (fits : CAP < 2 ^ 64) (inv : Inv w) {p : Pusher}
    (meets : Exclusive w (.pushWrite p)) (ran : step w (.pushWrite p) = some v) : Inv v := by
  obtain ⟨item, head, at_admitted, _, rfl⟩ := push_write_cases ran
  obtain ⟨same, room, index, short⟩ := write_slot_blank fits inv meets
  obtain ⟨none, fresh, _, clear⟩ := meets
  simp only [at_admitted, PushPc.head, Option.some.injEq] at fresh
  subst head
  have behind := inv.fetched_accepted.length_le
  have upto : w.fetched.length ≤ w.stored.length := by rw [same]; exact behind
  rw [← List.length_drop] at clear
  have kept := holds_store fits inv.holds short clear item
  refine ⟨inv.head_eq, inv.tail_eq, ?_, ?_, inv.fetched_accepted, .inr ⟨p, item, ?_, ?_, ?_⟩,
    inv.pops⟩
  · simp only [List.length_append, List.length_singleton, same, move_pusher_frame]
    omega
  · rw [← index] at kept
    simpa [List.drop_append_of_le_length upto] using kept
  · simp
  · simp [same]
  · intro other unequal
    simpa [unequal] using none other

theorem inv_push_publish (inv : Inv w) {p : Pusher} (ran : step w (.pushPublish p) = some v) :
    Inv v := by
  obtain ⟨item, head, at_written, rfl⟩ := push_publish_cases ran
  rcases inv.pushes with ⟨_, none⟩ | ⟨q, value, at_own, all, alone⟩
  · simpa [at_written, PushPc.pastWrite] using none p
  · have same : q = p := by
      by_contra unequal
      simpa [at_written, PushPc.pastWrite] using alone p (Ne.symm unequal)
    subst q
    rw [at_written] at at_own
    simp only [PushPc.written.injEq] at at_own
    obtain ⟨rfl, rfl⟩ := at_own
    refine ⟨?_, inv.tail_eq, inv.bounded, inv.holds, ?_, .inl ⟨all, ?_⟩, inv.pops⟩
    · simpa using counter_succ inv.head_eq
    · exact inv.fetched_accepted.trans (List.prefix_append _ _)
    · intro other
      by_cases equal : other = p
      · subst other
        simp [PushPc.pastWrite]
      · simpa [equal] using alone other equal

theorem inv_pop_read (fits : CAP < 2 ^ 64) (inv : Inv w) {c : Popper} {garbage : T}
    (meets : Exclusive w (.popRead c garbage)) (ran : step w (.popRead c garbage) = some v) :
    Inv v := by
  obtain ⟨tail, found, at_admitted, read, rfl⟩ := pop_read_cases ran
  obtain ⟨same, oldest, rest, shape, next, held, index⟩ := read_slot_oldest fits inv meets
  obtain ⟨none, fresh, _⟩ := meets
  simp only [at_admitted, PopPc.tail, Option.some.injEq] at fresh
  subst tail
  rw [held] at read
  simp only [Option.some.injEq] at read
  subst found
  have holds := inv.holds
  rw [shape] at holds
  have tailShape : w.stored.drop (w.fetched ++ [oldest]).length = rest := by
    rw [List.length_append, List.length_singleton, ← List.drop_drop, shape]
    rfl
  refine ⟨inv.head_eq, inv.tail_eq, inv.bounded, ?_, ?_, inv.pushes, .inr ⟨c, oldest, ?_, ?_, ?_⟩⟩
  · have kept := holds_take holds
    rw [← index] at kept
    simpa [← tailShape] using kept
  · rw [← same] at next
    obtain ⟨after, whole⟩ := inv.fetched_accepted
    cases after with
    | nil =>
      rw [← whole] at next
      simp at next
    | cons first later =>
      rw [← whole] at next
      simp only [List.getElem?_append_right (Nat.le_refl _), Nat.sub_self,
        List.getElem?_cons_zero, Option.some.injEq] at next
      subst first
      exact ⟨later, by simpa using whole⟩
  · simp
  · simp [same]
  · intro other unequal
    simpa [unequal] using none other

theorem inv_pop_release (inv : Inv w) {c : Popper} (ran : step w (.popRelease c) = some v) :
    Inv v := by
  obtain ⟨item, tail, at_taken, rfl⟩ := pop_release_cases ran
  rcases inv.pops with ⟨_, none⟩ | ⟨q, value, at_own, all, alone⟩
  · simpa [at_taken, PopPc.pastRead] using none c
  · have same : q = c := by
      by_contra unequal
      simpa [at_taken, PopPc.pastRead] using alone c (Ne.symm unequal)
    subst q
    rw [at_taken] at at_own
    simp only [PopPc.taken.injEq] at at_own
    obtain ⟨rfl, rfl⟩ := at_own
    refine ⟨inv.head_eq, ?_, ?_, inv.holds, inv.fetched_accepted, inv.pushes, .inl ⟨all, ?_⟩⟩
    · simpa using counter_succ inv.tail_eq
    · have bound := inv.bounded
      simp only [List.length_append, List.length_singleton, move_popper_frame]
      omega
    · intro other
      by_cases equal : other = c
      · subst other
        simp [PopPc.pastRead]
      · simpa [equal] using alone other equal

theorem inv_step (fits : CAP < 2 ^ 64) (inv : Inv w) {a : Action Pusher Popper T}
    (meets : Exclusive w a) (ran : step w a = some v) : Inv v := by
  cases a with
  | pushLoad p item =>
    obtain ⟨at_idle, rfl⟩ := push_load_cases ran
    exact inv_move_pusher inv (by simp [at_idle, PushPc.pastWrite]) rfl
  | pushCheck p =>
    obtain ⟨item, head, at_loaded, ⟨_, rfl⟩ | ⟨_, rfl⟩⟩ := push_check_cases ran <;>
      exact inv_move_pusher inv (by simp [at_loaded, PushPc.pastWrite]) rfl
  | pushWrite p => exact inv_push_write fits inv meets ran
  | pushPublish p => exact inv_push_publish inv ran
  | popLoad c =>
    obtain ⟨at_idle, rfl⟩ := pop_load_cases ran
    exact inv_move_popper inv (by simp [at_idle, PopPc.pastRead]) rfl
  | popCheck c =>
    obtain ⟨tail, at_loaded, ⟨_, rfl⟩ | ⟨_, rfl⟩⟩ := pop_check_cases ran <;>
      exact inv_move_popper inv (by simp [at_loaded, PopPc.pastRead]) rfl
  | popRead c garbage => exact inv_pop_read fits inv meets ran
  | popRelease c => exact inv_pop_release inv ran

theorem exclusive_inv (fits : CAP < 2 ^ 64)
    (reached : Reaches step Exclusive World.new w) : Inv w :=
  holds_throughout inv_new (fun _ _ _ _ inv meets ran => inv_step fits inv meets ran) reached

theorem accepted_grows {a : Action Pusher Popper T} (ran : step w a = some v) :
    w.accepted.length ≤ v.accepted.length := by
  cases a with
  | pushLoad p item =>
    obtain ⟨_, rfl⟩ := push_load_cases ran
    simp
  | pushCheck p =>
    obtain ⟨item, head, _, ⟨_, rfl⟩ | ⟨_, rfl⟩⟩ := push_check_cases ran <;> simp
  | pushWrite p =>
    obtain ⟨item, head, _, _, rfl⟩ := push_write_cases ran
    simp
  | pushPublish p =>
    obtain ⟨item, head, _, rfl⟩ := push_publish_cases ran
    simp
  | popLoad c =>
    obtain ⟨_, rfl⟩ := pop_load_cases ran
    simp
  | popCheck c =>
    obtain ⟨tail, _, ⟨_, rfl⟩ | ⟨_, rfl⟩⟩ := pop_check_cases ran <;> simp
  | popRead c garbage =>
    obtain ⟨tail, found, _, _, rfl⟩ := pop_read_cases ran
    simp
  | popRelease c =>
    obtain ⟨item, tail, _, rfl⟩ := pop_release_cases ran
    simp

end

def Drained (w : World Pusher Popper T CAP) : Prop :=
  (∀ p, w.pusher p = .idle) ∧ (∀ c, w.popper c = .idle) ∧ w.queue.head = w.queue.tail

instance [Fintype Pusher] [Fintype Popper] [DecidableEq T] (w : World Pusher Popper T CAP) :
    Decidable (Drained w) := inferInstanceAs (Decidable (_ ∧ _))

/-- No accepted item is returned twice, and once the queue is drained every
    accepted item has been returned. -/
def Conserves (w : World Pusher Popper T CAP) : Prop :=
  w.returned.Subperm w.accepted ∧ (Drained w → w.returned.Perm w.accepted)

theorem inv_conserves (fits : CAP < 2 ^ 64) {w : World Pusher Popper T CAP} (inv : Inv w) :
    Conserves w := by
  have ordered := returned_accepted inv
  refine ⟨ordered.sublist.subperm, ?_⟩
  rintro ⟨_, _, same⟩
  have size := (empty_iff fits inv).mp same.symm
  rw [ordered.eq_of_length size.symm]

/-- Any number of handles: in a run whose slot accesses are all exclusive, no
    accepted item is lost, returned twice or returned out of order. -/
theorem exclusive_callers_conserve [DecidableEq Pusher] [DecidableEq Popper]
    (fits : CAP < 2 ^ 64) {w : World Pusher Popper T CAP}
    (reached : Reaches step Exclusive World.new w) :
    Conserves w ∧ w.returned <+: w.accepted :=
  have inv := exclusive_inv fits reached
  ⟨inv_conserves fits inv, returned_accepted inv⟩

/-- One push by each of two handles, one after the other, and a pop. -/
def twoHandles : List (Action (Fin 2) (Fin 1) Nat) :=
  [.pushLoad 0 7, .pushCheck 0, .pushWrite 0, .pushPublish 0,
    .pushLoad 1 8, .pushCheck 1, .pushWrite 1, .pushPublish 1,
    .popLoad 0, .popCheck 0, .popRead 0 0, .popRelease 0]

theorem two_handles_conserve : ∃ w : World (Fin 2) (Fin 1) Nat 2,
    w.accepted = [7, 8] ∧ Conserves w ∧ w.returned <+: w.accepted := by
  have ran : (run step Exclusive (World.new : World (Fin 2) (Fin 1) Nat 2) twoHandles).map
      (fun w => decide (w.accepted = [7, 8])) = some true := by decide
  obtain ⟨w, reached, shows⟩ := reaches_showing _ _ ran
  exact ⟨w, by simpa using shows, exclusive_callers_conserve (by decide) reached⟩

/-- Two pushes that both load head before either publishes. -/
def racingPushes : List (Action (Fin 2) (Fin 1) Nat) :=
  [.pushLoad 0 7, .pushLoad 1 8, .pushCheck 0, .pushCheck 1, .pushWrite 0, .pushWrite 1,
    .pushPublish 0, .pushPublish 1, .popLoad 0, .popCheck 0, .popRead 0 0, .popRelease 0]

/-- Both pushes return Ok, the drained queue has returned only one item. -/
theorem racing_pushes_lose_item : ∃ w : World (Fin 2) (Fin 1) Nat 2,
    Reachable step World.new w ∧ w.accepted = [7, 8] ∧ w.returned = [8] ∧ ¬ Conserves w := by
  have ran : (run step (fun _ _ => True) (World.new : World (Fin 2) (Fin 1) Nat 2)
      racingPushes).map (fun w => decide (w.accepted = [7, 8] ∧ w.returned = [8] ∧ Drained w)) =
        some true := by decide
  obtain ⟨w, reached, shows⟩ := reaches_showing _ _ ran
  obtain ⟨accepted, returned, drained⟩ := of_decide_eq_true shows
  refine ⟨w, reached, accepted, returned, ?_⟩
  rintro ⟨_, all⟩
  have size := (all drained).length_eq
  simp [accepted, returned] at size

section
variable {w v : World Unit Unit T CAP}

def InRange (w : World Unit Unit T CAP) : Prop := CAP ∣ 2 ^ 64 ∨ w.accepted.length < 2 ^ 64

theorem solo_write_exclusive (fits : CAP < 2 ^ 64) (inv : Inv w) (counters : Counters w)
    (range : InRange w) {item : T} {head : UInt64}
    (at_admitted : w.pusher () = .admitted item head) : Exclusive w (.pushWrite ()) := by
  have current := counters.push_current head (by rw [at_admitted]; rfl)
  have room := counters.push_room (by rw [at_admitted]; rfl)
  have same : w.stored = w.accepted := by
    rcases inv.pushes with ⟨same, _⟩ | ⟨p, other, at_written, _⟩
    · exact same
    · simp [at_admitted] at at_written
  have behind := inv.fetched_accepted.length_le
  refine ⟨fun _ => by simp [at_admitted, PushPc.pastWrite],
    by rw [at_admitted, current]; rfl, ?_, ?_⟩
  · rw [← Bool.not_eq_true, published_full_iff counters fits]
    omega
  · rcases range with divides | few
    · exact no_clash_of_dvd divides _ _
    · exact no_clash_below (by rw [same]; omega)

theorem solo_read_exclusive (fits : CAP < 2 ^ 64) (counters : Counters w) {tail : UInt64}
    (at_admitted : w.popper () = .admitted tail) (garbage : T) :
    Exclusive w (.popRead () garbage) := by
  have current := counters.pop_current tail (by rw [at_admitted]; rfl)
  have more := counters.pop_more (by rw [at_admitted]; rfl)
  refine ⟨fun _ => by simp [at_admitted, PopPc.pastRead],
    by rw [at_admitted, current]; rfl, ?_⟩
  rw [Ne, published_empty_iff counters fits]
  omega

theorem solo_exclusive (fits : CAP < 2 ^ 64) (inv : Inv w) (counters : Counters w)
    (range : InRange w) {a : Action Unit Unit T} (ran : step w a = some v) : Exclusive w a := by
  cases a with
  | pushWrite p =>
    obtain ⟨item, head, at_admitted, _⟩ := push_write_cases ran
    exact solo_write_exclusive fits inv counters range at_admitted
  | popRead c garbage =>
    obtain ⟨tail, found, at_admitted, _⟩ := pop_read_cases ran
    exact solo_read_exclusive fits counters at_admitted garbage
  | _ => trivial

/-- One producer and one consumer make every access exclusive, for each side's
    loaded counter stays current and its decision right whatever the other does. -/
theorem solo_invariant (fits : CAP < 2 ^ 64) (reached : Reachable step World.new w)
    (range : InRange w) : Inv w ∧ Counters w := by
  apply holds_while ⟨inv_new, counters_new⟩ ?_ ?_ reached range
  · intro s a t ran later
    exact later.imp_right fun few => Nat.lt_of_le_of_lt (accepted_grows ran) few
  · rintro s a t within ⟨inv, counters⟩ _ ran _
    exact ⟨inv_step fits inv (solo_exclusive fits inv counters within ran) ran,
      counters_step fits counters ran⟩

end

/-- One producer and one consumer, any interleaving: FIFO order, the capacity
    bound, exclusive slots and exact full and empty answers. The producer is
    about to write, or the consumer to read, when it is admitted; an answer of
    QueueFull or None is a check that goes back to idle. -/
theorem spsc_interleaving_fifo (fits : CAP < 2 ^ 64) {w : World Unit Unit T CAP}
    (reached : Reachable step World.new w)
    (range : CAP ∣ 2 ^ 64 ∨ w.accepted.length < 2 ^ 64) :
    w.returned <+: w.accepted ∧
    w.accepted.length ≤ w.returned.length + CAP ∧
    (∀ item head, w.pusher () = .admitted item head →
      w.queue.buffer[slotIndex CAP head]? = some none) ∧
    (∀ tail, w.popper () = .admitted tail → ∃ oldest,
      w.accepted[w.returned.length]? = some oldest ∧
      w.queue.buffer[slotIndex CAP tail]? = some (some oldest)) ∧
    (∀ v, step w (.pushCheck ()) = some v → v.pusher () = .idle →
      w.accepted.length = w.returned.length + CAP) ∧
    (∀ v, step w (.popCheck ()) = some v → v.popper () = .idle →
      w.accepted.length = w.returned.length) := by
  obtain ⟨inv, counters⟩ := solo_invariant fits reached range
  refine ⟨returned_accepted inv, counters.bounded, ?_, ?_, ?_, ?_⟩
  · intro item head at_admitted
    have meets := solo_write_exclusive fits inv counters range at_admitted
    obtain ⟨_, _, index, short⟩ := write_slot_blank fits inv meets
    obtain ⟨_, _, _, clear⟩ := meets
    rw [counters.push_current head (by rw [at_admitted]; rfl), index]
    rw [← List.length_drop] at clear
    exact holds_next_blank fits inv.holds short clear
  · intro tail at_admitted
    have more := counters.pop_more (by rw [at_admitted]; rfl)
    obtain ⟨garbage⟩ : Nonempty T := ⟨w.accepted[w.returned.length]⟩
    obtain ⟨_, oldest, _, _, next, held, _⟩ :=
      read_slot_oldest fits inv (solo_read_exclusive fits counters at_admitted garbage)
    rw [counters.pop_current tail (by rw [at_admitted]; rfl)]
    exact ⟨oldest, next, held⟩
  · intro v ran ended
    obtain ⟨item, head, at_loaded, ⟨full, rfl⟩ | ⟨_, rfl⟩⟩ := push_check_cases ran
    · rw [counters.push_current head (by rw [at_loaded]; rfl)] at full
      exact (published_full_iff counters fits).mp full
    · simp at ended
  · intro v ran ended
    obtain ⟨tail, at_loaded, ⟨empty, rfl⟩ | ⟨_, rfl⟩⟩ := pop_check_cases ran
    · rw [counters.pop_current tail (by rw [at_loaded]; rfl)] at empty
      exact (published_empty_iff counters fits).mp empty
    · simp at ended

/-- Two slots: three items in, the first out, the third about to be written and
    the consumer about to read the second. -/
def twoSlots : List (Action Unit Unit Nat) :=
  [.popLoad (), .pushLoad () 7, .pushCheck (), .pushWrite (), .pushPublish (), .popCheck (),
    .pushLoad () 8, .popRead () 0, .pushCheck (), .pushWrite (), .popRelease (), .pushPublish (),
    .popLoad (), .pushLoad () 9, .popCheck (), .pushCheck ()]

theorem two_slots_interleaving : ∃ w : World Unit Unit Nat 2,
    Reachable step World.new w ∧ w.accepted = [7, 8] ∧ w.returned = [7] ∧
      w.returned <+: w.accepted ∧ w.pusher () = .admitted 9 2 ∧
      w.queue.buffer[slotIndex 2 2]? = some none ∧ w.popper () = .admitted 1 ∧
      w.queue.buffer[slotIndex 2 1]? = some (some 8) := by
  have ran : (run step (fun _ _ => True) (World.new : World Unit Unit Nat 2) twoSlots).map
      (fun w => decide (w.accepted = [7, 8] ∧ w.returned = [7] ∧ w.pusher () = .admitted 9 2 ∧
        w.popper () = .admitted 1)) = some true := by
    decide
  obtain ⟨w, reached, shows⟩ := reaches_showing _ _ ran
  obtain ⟨accepted, returned, pusher, popper⟩ := of_decide_eq_true shows
  obtain ⟨order, _, blank, oldest, _⟩ :=
    spsc_interleaving_fifo (by decide) reached (.inl (by decide))
  obtain ⟨item, next, held⟩ := oldest 1 popper
  rw [accepted, returned] at next
  cases next
  exact ⟨w, reached, accepted, returned, order, pusher, blank 9 2 pusher, popper, held⟩

end CellInterleaving
