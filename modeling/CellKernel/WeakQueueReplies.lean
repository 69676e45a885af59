import CellKernel.WeakQueue

/-
What a step of push or pop tells its caller, and what it leaves alone. A caller
uses the queue through these two specifications only.
-/
namespace CellWeak
open CellInterleaving CellQueue ReleaseAcquire
variable {Thread Loc Cell T : Type} {CAP : Nat}

inductive PushReply where
  | running
  | refused
  | accepted
  deriving DecidableEq

inductive PopReply (T : Type) where
  | running
  | empty
  | returned (item : T)

def pushReply : PushPc T → PushPc T → PushReply
  | .written _ _, .idle => .accepted
  | _, .idle => .refused
  | _, _ => .running

def popReply : PopPc T → PopPc T → PopReply T
  | .taken item _, .idle => .returned item
  | _, .idle => .empty
  | _, _ => .running

def pushItem : PushPc T → Option T
  | .idle => none
  | .loaded item _ | .admitted item _ | .written item _ => some item

inductive PushAccess where
  | load (time : Nat)
  | check (time : Nat)
  | write
  | publish (time : Nat)

def PushAccess.pushing (item : T) : PushAccess → PushAction T
  | .load time => .load item time
  | .check time => .check time
  | .write => .write
  | .publish time => .publish time

def Ring.held (r : Ring Thread Loc T CAP) : List T := r.accepted.drop r.returned.length

/-- The step changes no memory but that of the queue: one counter at most is
    stored, by the end that owns it, and one slot at most is accessed. -/
def Within (p : Place Thread Loc Cell) (counter : Loc) (m m' : Memory Thread Loc Cell UInt64) :
    Prop :=
  ∃ stored accessed, Frame m m' stored accessed ∧ (∀ l, stored = some l → l = counter) ∧
    ∀ c, accessed = some c → ∃ i, c = p.slot i

/-- A step of push keeps the other end as it is. -/
structure Pushed (p : Place Thread Loc Cell) (m : Memory Thread Loc Cell UInt64)
    (r : Ring Thread Loc T CAP) (a : PushAction T) (m' : Memory Thread Loc Cell UInt64)
    (r' : Ring Thread Loc T CAP) : Prop where
  inv : RingInv p m' r'
  within : Within p p.head m m'
  popper : r'.popper = r.popper
  returned : r'.returned = r.returned
  pushing : ∀ item, pushItem r'.pusher = some item →
    pushItem r.pusher = some item ∨ ∃ time, a = .load item time
  told : ∀ (n : Nat) e, r'.heads[n]? = some e →
    r.heads[n]? = some e ∨ e.2.view = m'.views p.producer
  reply : (pushReply r.pusher r'.pusher = .running ∧ r'.accepted = r.accepted) ∨
    (pushReply r.pusher r'.pusher = .refused ∧ r'.accepted = r.accepted ∧ r'.pusher = .idle ∧
      ∀ known, Observed m p.producer p.tail r.tails known → known + CAP ≤ r.accepted.length) ∨
    ∃ item, pushReply r.pusher r'.pusher = .accepted ∧ pushItem r.pusher = some item ∧
      r'.accepted = r.accepted ++ [item] ∧ r'.pusher = .idle ∧ r.held.length < CAP ∧
        r'.held = r.held ++ [item]

structure Popped (p : Place Thread Loc Cell) (m : Memory Thread Loc Cell UInt64)
    (r : Ring Thread Loc T CAP) (m' : Memory Thread Loc Cell UInt64)
    (r' : Ring Thread Loc T CAP) : Prop where
  inv : RingInv p m' r'
  within : Within p p.tail m m'
  pusher : r'.pusher = r.pusher
  accepted : r'.accepted = r.accepted
  heads : r'.heads = r.heads
  reply : (popReply r.popper r'.popper = .running ∧ r'.returned = r.returned) ∨
    (popReply r.popper r'.popper = .empty ∧ r'.returned = r.returned ∧ r'.popper = .idle ∧
      ∀ known, Observed m p.consumer p.head r.heads known → known ≤ r.returned.length) ∨
    ∃ item, popReply r.popper r'.popper = .returned item ∧
      r'.returned = r.returned ++ [item] ∧ r'.popper = .idle ∧ r.held = item :: r'.held

section
variable {p : Place Thread Loc Cell} {m m' : Memory Thread Loc Cell UInt64}
  {r r' : Ring Thread Loc T CAP}

theorem frame_refl (m : Memory Thread Loc Cell UInt64) : Frame m m none none :=
  ⟨fun _ => le_refl _, fun _ _ _ _ pub => pub, fun _ _ => rfl⟩

theorem within_frame {counter : Loc} (framed : Frame m m' none none) : Within p counter m m' := by
  refine ⟨none, none, framed, ?_, ?_⟩
  · intro l absent
    cases absent
  · intro c absent
    cases absent

theorem within_store {counter : Loc} (framed : Frame m m' (some counter) none) :
    Within p counter m m' := by
  refine ⟨some counter, none, framed, ?_, ?_⟩
  · intro l same
    cases same
    rfl
  · intro c absent
    cases absent

theorem within_access {counter : Loc} {i : Nat} (framed : Frame m m' none (some (p.slot i))) :
    Within p counter m m' := by
  refine ⟨none, some (p.slot i), framed, ?_, ?_⟩
  · intro l absent
    cases absent
  · intro c same
    cases same
    exact ⟨i, rfl⟩

theorem within_grows {counter : Loc} (within : Within p counter m m') (i : Thread) :
    m.views i ≤ m'.views i := by
  obtain ⟨_, _, framed, _⟩ := within
  exact framed.grows i

theorem within_accesses {counter : Loc} (within : Within p counter m m') {c : Cell}
    (outside : ∀ i, c ≠ p.slot i) : m'.accesses c = m.accesses c := by
  obtain ⟨_, accessed, framed, _, inside⟩ := within
  apply framed.accesses c
  intro same
  obtain ⟨i, slot⟩ := inside c same
  exact outside i slot

theorem within_other {U : Type} {cap : Nat} {q : Place Thread Loc Cell} {counter : Loc}
    {s : Ring Thread Loc U cap} (within : Within p counter m m') (inv : RingInv q m s)
    (head : counter ≠ q.head) (tail : counter ≠ q.tail) (slots : ∀ i j, p.slot i ≠ q.slot j) :
    RingInv q m' s := by
  obtain ⟨stored, accessed, framed, only, inside⟩ := within
  refine ring_frame inv framed ?_ ?_ ?_
  · intro same
    exact head (only _ same).symm
  · intro same
    exact tail (only _ same).symm
  · intro j same
    obtain ⟨i, shared⟩ := inside _ same
    exact slots i j shared.symm

theorem pushing_load {item found : T} {time : Nat} {a : PushAccess}
    (loads : a.pushing item = .load found time) : found = item := by
  cases a with
  | load =>
    cases loads
    rfl
  | _ => cases loads

theorem held_short (inv : RingInv p m r) : r.held.length ≤ CAP := by
  have room := accepted_room inv
  rw [Ring.held, List.length_drop]
  omega

theorem room_short (inv : RingInv p m r) (past : r.pusher.pastCheck = true) :
    r.held.length < CAP := by
  obtain ⟨popped, observed, _, admitted⟩ := inv.room
  have known := observed_inside observed
  have length := inv.tails_length
  have behind := (ring_returned_accepted inv).length_le
  have free := admitted past
  rw [Ring.held, List.length_drop]
  omega

theorem last_message {log : Log Thread Loc} {count : Nat} (length : log.length = count + 1) :
    ∃ e, log[log.length - 1]? = some e ∧ log[count]? = some e := by
  have inside : count < log.length := by omega
  have same : log.length - 1 = count := by omega
  rw [same]
  exact ⟨log[count], List.getElem?_eq_getElem inside, List.getElem?_eq_getElem inside⟩

variable [DecidableEq Thread] [DecidableEq Loc] [DecidableEq Cell]

theorem push_spec (fits : CAP < 2 ^ 64) (inv : RingInv p m r) (range : r.InRange)
    {a : PushAction T} (ran : pushStep p m r a = some (m', r')) : Pushed p m r a m' r' := by
  have kept := push_inv fits inv range (push_move ran)
  cases a with
  | load item time =>
    simp only [pushStep] at ran
    split at ran
    · rename_i here
      split at ran
      · cases ran
      · obtain ⟨⟨head, next⟩, loaded, same⟩ := Option.map_eq_some_iff.mp ran
        cases same
        obtain ⟨rfl, _⟩ := own_load inv.heads loaded
        refine ⟨kept, within_frame (frame_refl _), rfl, rfl, ?_, fun _ _ => Or.inl, Or.inl ?_⟩
        · intro loaded same
          cases same
          exact Or.inr ⟨time, rfl⟩
        · rw [here]
          exact ⟨rfl, rfl⟩
    · cases ran
  | check time =>
    have refusal : r'.pusher = .idle → ∀ known, Observed m p.producer p.tail r.tails known →
        known + CAP ≤ r.accepted.length :=
      fun idle _ => refused_truth fits inv ran idle
    simp only [pushStep] at ran
    split at ran
    · rename_i found head here
      obtain ⟨⟨tail, next⟩, loaded, same⟩ := Option.map_eq_some_iff.mp ran
      cases same
      refine ⟨kept, within_frame (load_frame loaded), rfl, rfl, ?_, fun _ _ => Or.inl, ?_⟩
      · intro other same
        simp only at same
        split at same
        · cases same
        · rw [here]
          exact Or.inl same
      · by_cases full : countersFull CAP head tail = true
        · have idle : (if countersFull CAP head tail = true then PushPc.idle
              else .admitted found head) = .idle := if_pos full
          refine Or.inr (Or.inl ⟨?_, rfl, idle, refusal idle⟩)
          simp only [here, idle, pushReply]
        · refine Or.inl ⟨?_, rfl⟩
          simp only [here, full, pushReply]
          rfl
    · cases ran
  | write =>
    simp only [pushStep] at ran
    split at ran
    · rename_i found head here
      split at ran
      · cases ran
      · rename_i buffer wrote
        cases ran
        refine ⟨kept, within_access (access_frame ..), rfl, rfl, ?_, fun _ _ => Or.inl,
          Or.inl ?_⟩
        · intro other same
          rw [here]
          exact Or.inl same
        · rw [here]
          exact ⟨rfl, rfl⟩
    · cases ran
  | publish time =>
    simp only [pushStep] at ran
    split at ran
    · rename_i found head here
      obtain ⟨next, stored, same⟩ := Option.map_eq_some_iff.mp ran
      cases same
      refine ⟨kept, within_store (store_frame stored), rfl, rfl, ?_, ?_, Or.inr (Or.inr ?_)⟩
      · intro other same
        cases same
      · intro n e there
        rcases snoc_lookup there with ⟨_, old⟩ | ⟨_, rfl⟩
        · exact Or.inl old
        · exact Or.inr rfl
      · have short := room_short inv (by rw [here]; rfl)
        rw [here]
        refine ⟨found, rfl, rfl, rfl, rfl, short, ?_⟩
        exact List.drop_append_of_le_length (ring_returned_accepted inv).length_le
    · cases ran

theorem pop_spec (fits : CAP < 2 ^ 64) (inv : RingInv p m r) {a : PopAction T}
    (ran : popStep p m r a = some (m', r')) : Popped p m r m' r' := by
  have kept := pop_inv fits inv (pop_move ran)
  cases a with
  | load time =>
    simp only [popStep] at ran
    split at ran
    · rename_i here
      split at ran
      · cases ran
      · obtain ⟨⟨tail, next⟩, loaded, same⟩ := Option.map_eq_some_iff.mp ran
        cases same
        obtain ⟨rfl, _⟩ := own_load inv.tails loaded
        refine ⟨kept, within_frame (frame_refl _), rfl, rfl, rfl, Or.inl ?_⟩
        rw [here]
        exact ⟨rfl, rfl⟩
    · cases ran
  | check time =>
    have nothing : r'.popper = .idle → ∀ known, Observed m p.consumer p.head r.heads known →
        known ≤ r.returned.length :=
      fun idle _ => empty_truth fits inv ran idle
    simp only [popStep] at ran
    split at ran
    · rename_i tail here
      obtain ⟨⟨head, next⟩, loaded, same⟩ := Option.map_eq_some_iff.mp ran
      cases same
      refine ⟨kept, within_frame (load_frame loaded), rfl, rfl, rfl, ?_⟩
      by_cases drained : tail = head
      · have idle : (if tail = head then PopPc.idle else (.admitted tail : PopPc T)) = .idle :=
          if_pos drained
        refine Or.inr (Or.inl ⟨?_, rfl, idle, nothing idle⟩)
        simp only [here, idle, popReply]
      · refine Or.inl ⟨?_, rfl⟩
        simp only [here, drained, popReply]
        rfl
    · cases ran
  | read garbage =>
    simp only [popStep] at ran
    split at ran
    · rename_i tail here
      split at ran
      · cases ran
      · cases ran
        refine ⟨kept, within_access (access_frame ..), rfl, rfl, rfl, Or.inl ?_⟩
        rw [here]
        exact ⟨rfl, rfl⟩
    · cases ran
  | release time =>
    simp only [popStep] at ran
    split at ran
    · rename_i item tail here
      obtain ⟨next, stored, same⟩ := Option.map_eq_some_iff.mp ran
      cases same
      refine ⟨kept, within_store (store_frame stored), rfl, rfl, rfl, Or.inr (Or.inr ?_)⟩
      refine ⟨item, by rw [here]; rfl, rfl, rfl, ?_⟩
      have oldest := taken_oldest inv here
      simp only [Ring.held, List.length_append, List.length_singleton]
      exact oldest
    · cases ran

/-- A push into a queue with room goes on when it loads the newest messages. -/
theorem push_advances (fits : CAP < 2 ^ 64) (inv : RingInv p m r) (item : T)
    (room : r.held.length < CAP) :
    ∃ a m' r', pushStep p m r (PushAccess.pushing item a) = some (m', r') ∧
      (r'.accepted ≠ r.accepted ∨ r'.pusher.left < r.pusher.left) := by
  obtain ⟨lastHead, newestHead, _⟩ := last_message inv.heads_length
  obtain ⟨lastTail, newestTail, atTail⟩ := last_message inv.tails_length
  cases pc : r.pusher with
  | idle =>
    obtain ⟨m', loaded⟩ := load_last inv.heads newestHead p.producer .relaxed
    have ran : pushStep p m r (PushAccess.pushing item (.load lastHead.1)) =
        some (m', { r with pusher := .loaded item lastHead.2.value }) := by
      simp only [PushAccess.pushing, pushStep, pc, if_neg (by omega : ¬ CAP = 0), loaded,
        Option.map_some]
    exact ⟨_, _, _, ran, Or.inr (Nat.lt_succ_self 3)⟩
  | loaded found head =>
    obtain ⟨m', loaded⟩ := load_last inv.tails newestTail p.producer .acquire
    have behind := (ring_returned_accepted inv).length_le
    have answer := full_answer fits (inv.push_loaded head (by rw [pc]; rfl))
      (inv.tail_value _ _ atTail) behind (accepted_room inv)
    have unfilled : ¬ countersFull CAP head lastTail.2.value = true := by
      rw [answer]
      rw [Ring.held, List.length_drop] at room
      omega
    have ran : pushStep p m r (PushAccess.pushing item (.check lastTail.1)) =
        some (m', { r with pusher := .admitted found head }) := by
      simp only [PushAccess.pushing, pushStep, pc, loaded, Option.map_some, if_neg unfilled]
    exact ⟨_, _, _, ran, Or.inr (Nat.lt_succ_self 2)⟩
  | admitted found head =>
    have inside : slotIndex CAP head < CAP := Nat.mod_lt _ (by omega)
    have ran : pushStep p m r (PushAccess.pushing item .write) =
        some (m.access p.producer (p.slot (slotIndex CAP head)) true, { r with
          buffer := r.buffer.setIfInBounds (slotIndex CAP head) (some found)
          pusher := .written found head
          writes := r.writes ++ [(m.views p.producer).clock p.producer + 1] }) := by
      simp only [PushAccess.pushing, pushStep, pc, writeSlot, if_pos inside]
    exact ⟨_, _, _, ran, Or.inr (Nat.lt_succ_self 1)⟩
  | written found head =>
    obtain ⟨m', stored⟩ := store_next inv.heads newestHead p.producer .release (head + 1)
    have ran : pushStep p m r (PushAccess.pushing item (.publish (lastHead.1 + 1))) =
        some (m', { r with
          pusher := .idle
          accepted := r.accepted ++ [found]
          heads := r.heads ++ [(lastHead.1 + 1, ⟨head + 1, m'.views p.producer⟩)] }) := by
      simp only [PushAccess.pushing, pushStep, pc, stored, Option.map_some]
    exact ⟨_, _, _, ran, Or.inl (by simp)⟩

theorem pop_advances (fits : CAP < 2 ^ 64) (inv : RingInv p m r) (held : r.held ≠ []) :
    ∃ a m' r', popStep p m r a = some (m', r') ∧
      (r'.returned ≠ r.returned ∨ r'.popper.left < r.popper.left) := by
  obtain ⟨lastHead, newestHead, atHead⟩ := last_message inv.heads_length
  obtain ⟨lastTail, newestTail, _⟩ := last_message inv.tails_length
  have behind := (ring_returned_accepted inv).length_le
  have room := accepted_room inv
  have some_held : r.returned.length < r.accepted.length := by
    have positive := List.length_pos_of_ne_nil held
    rw [Ring.held, List.length_drop] at positive
    omega
  cases pc : r.popper with
  | idle =>
    obtain ⟨m', loaded⟩ := load_last inv.tails newestTail p.consumer .relaxed
    have ran : popStep p m r (.load lastTail.1) =
        some (m', { r with popper := .loaded lastTail.2.value }) := by
      simp only [popStep, pc, if_neg (by omega : ¬ CAP = 0), loaded, Option.map_some]
    exact ⟨_, _, _, ran, Or.inr (Nat.lt_succ_self 3)⟩
  | loaded tail =>
    obtain ⟨m', loaded⟩ := load_last inv.heads newestHead p.consumer .acquire
    have answer := empty_answer fits (inv.pop_loaded tail (by rw [pc]; rfl))
      (inv.head_value _ _ atHead) behind room
    have unequal : ¬ tail = lastHead.2.value := by
      rw [answer]
      omega
    have ran : popStep p m r (.check lastHead.1) =
        some (m', { r with popper := .admitted tail }) := by
      simp only [popStep, pc, loaded, Option.map_some, if_neg unequal]
    exact ⟨_, _, _, ran, Or.inr (Nat.lt_succ_self 2)⟩
  | admitted tail =>
    obtain ⟨oldest, _, _, there⟩ := read_oldest inv pc
    have ran : popStep p m r (.read oldest) =
        some (m.access p.consumer (p.slot (slotIndex CAP tail)) false, { r with
          buffer := r.buffer.setIfInBounds (slotIndex CAP tail) none
          popper := .taken oldest tail
          reads := r.reads ++ [(m.views p.consumer).clock p.consumer + 1] }) := by
      simp only [popStep, pc, there, Option.getD_some]
    exact ⟨_, _, _, ran, Or.inr (Nat.lt_succ_self 1)⟩
  | taken item tail =>
    obtain ⟨m', stored⟩ := store_next inv.tails newestTail p.consumer .release (tail + 1)
    have ran : popStep p m r (.release (lastTail.1 + 1)) =
        some (m', { r with
          popper := .idle
          returned := r.returned ++ [item]
          tails := r.tails ++ [(lastTail.1 + 1, ⟨tail + 1, m'.views p.consumer⟩)] }) := by
      simp only [popStep, pc, stored, Option.map_some]
    exact ⟨_, _, _, ran, Or.inl (by simp)⟩

theorem lowered_running {before after : PopPc T} (lower : after.left < before.left) :
    after ≠ .idle ∧ popReply before after = .running := by
  cases after with
  | idle =>
    have most : before.left ≤ 4 := by cases before <;> simp [PopPc.left]
    exact absurd lower (Nat.not_lt_of_le most)
  | _ => cases before <;> simp [popReply]

/-- Whatever a push into a queue with room loads, it goes on, unless it loads an
    old tail. -/
theorem push_goes_on (fits : CAP < 2 ^ 64) (inv : RingInv p m r) (room : r.held.length < CAP)
    {a : PushAction T} (ran : pushStep p m r a = some (m', r'))
    (newest : ∀ time, a = .check time → ∀ later, time < later → m.messages p.tail later = none) :
    r'.accepted ≠ r.accepted ∨ r'.pusher.left < r.pusher.left := by
  cases a with
  | check time =>
    simp only [pushStep] at ran
    split at ran
    · rename_i item head here
      obtain ⟨⟨tail, next⟩, loaded, same⟩ := Option.map_eq_some_iff.mp ran
      cases same
      obtain ⟨message, last, rfl⟩ := load_newest inv.tails loaded (newest time rfl)
      rw [inv.tails_length, Nat.add_sub_cancel] at last
      have behind := (ring_returned_accepted inv).length_le
      have answer := full_answer fits (inv.push_loaded head (by rw [here]; rfl))
        (inv.tail_value _ _ last) behind (accepted_room inv)
      have unfilled : ¬ countersFull CAP head message.value = true := by
        rw [answer]
        rw [Ring.held, List.length_drop] at room
        omega
      rw [here, if_neg unfilled]
      exact Or.inr (Nat.lt_succ_self 2)
    · cases ran
  | _ =>
    cases push_move ran with
    | loaded item time head m' here loads =>
      rw [here]
      exact Or.inr (Nat.lt_succ_self 3)
    | checked item time head tail m' here loads => simp [pushStep, here] at ran
    | wrote item head here inside =>
      rw [here]
      exact Or.inr (Nat.lt_succ_self 1)
    | published item time head m' here stores => exact Or.inl (by simp)

/-- Whatever a pop from a queue with an item loads, it goes on, unless it loads
    an old head. -/
theorem pop_goes_on (fits : CAP < 2 ^ 64) (inv : RingInv p m r) (held : r.held ≠ [])
    {a : PopAction T} (ran : popStep p m r a = some (m', r'))
    (newest : ∀ time, a = .check time → ∀ later, time < later → m.messages p.head later = none) :
    r'.returned ≠ r.returned ∨ r'.popper.left < r.popper.left := by
  cases a with
  | check time =>
    simp only [popStep] at ran
    split at ran
    · rename_i tail here
      obtain ⟨⟨head, next⟩, loaded, same⟩ := Option.map_eq_some_iff.mp ran
      cases same
      obtain ⟨message, last, rfl⟩ := load_newest inv.heads loaded (newest time rfl)
      rw [inv.heads_length, Nat.add_sub_cancel] at last
      have behind := (ring_returned_accepted inv).length_le
      have room := accepted_room inv
      have positive := List.length_pos_of_ne_nil held
      have answer := empty_answer fits (inv.pop_loaded tail (by rw [here]; rfl))
        (inv.head_value _ _ last) behind room
      have unequal : ¬ tail = message.value := by
        rw [answer]
        rw [Ring.held, List.length_drop] at positive
        omega
      rw [here, if_neg unequal]
      exact Or.inr (Nat.lt_succ_self 2)
    · cases ran
  | _ =>
    cases pop_move ran with
    | loaded time tail m' here loads =>
      rw [here]
      exact Or.inr (Nat.lt_succ_self 3)
    | checked time tail head m' here loads => simp [popStep, here] at ran
    | read found garbage tail here there =>
      rw [here]
      exact Or.inr (Nat.lt_succ_self 1)
    | released item time tail m' here stores => exact Or.inl (by simp)

theorem push_messages {a : PushAction T} (ran : pushStep p m r a = some (m', r'))
    (same : r'.accepted = r.accepted) : m'.messages = m.messages := by
  cases push_move ran with
  | loaded item time head m' here loads => exact load_messages loads
  | checked item time head tail m' here loads => exact load_messages loads
  | wrote item head here inside => rfl
  | published item time head m' here stores => simp at same

theorem pop_messages {a : PopAction T} (ran : popStep p m r a = some (m', r'))
    (same : r'.returned = r.returned) : m'.messages = m.messages := by
  cases pop_move ran with
  | loaded time tail m' here loads => exact load_messages loads
  | checked time tail head m' here loads => exact load_messages loads
  | read found garbage tail here there => rfl
  | released item time tail m' here stores => simp at same

end

end CellWeak
