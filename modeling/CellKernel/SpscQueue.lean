import Mathlib.Algebra.Group.Nat.Defs
import CellKernel.BoundedFifo
import CellKernel.RingWindow

/-
The ring buffer of crates/cell-queue, called one operation after another.
usize is 64 bits. MaybeUninit does not record which slots are initialized; the
model does, so that a read of a slot with no unread value is visible.
-/
namespace CellQueue
open CellFifo CellRing

structure QueueFull where
  deriving DecidableEq, Repr

/-- Ways a call can fail to return: the capacity assertion, an index past the
    array, and assume_init_read on a slot that holds no unread value. -/
inductive Fault where
  | capacityZero
  | indexOutOfBounds
  | deadSlotRead
  deriving DecidableEq, Repr

structure SpscQueue (T : Type) (CAP : Nat) where
  buffer : Vector (Option T) CAP
  head : UInt64
  tail : UInt64

variable {T : Type} {CAP : Nat}

def SpscQueue.new : SpscQueue T CAP := ⟨Vector.replicate CAP none, 0, 0⟩

/-- head.wrapping_sub(tail) == CAP -/
def countersFull (CAP : Nat) (head tail : UInt64) : Bool := (head - tail).toNat == CAP

def slotIndex (CAP : Nat) (counter : UInt64) : Nat := counter.toNat % CAP

def writeSlot (buffer : Vector (Option T) CAP) (index : Nat) (item : T) :
    Except Fault (Vector (Option T) CAP) :=
  if index < CAP then .ok (buffer.setIfInBounds index (some item))
  else .error .indexOutOfBounds

def assumeInitRead (buffer : Vector (Option T) CAP) (index : Nat) :
    Except Fault (T × Vector (Option T) CAP) :=
  match buffer[index]? with
  | none => .error .indexOutOfBounds
  | some none => .error .deadSlotRead
  | some (some item) => .ok (item, buffer.setIfInBounds index none)

def SpscQueue.pushInner (q : SpscQueue T CAP) (item : T) :
    Except Fault (Except QueueFull Unit × SpscQueue T CAP) :=
  if CAP = 0 then .error .capacityZero
  else
    let head := q.head
    let tail := q.tail
    if countersFull CAP head tail then .ok (.error ⟨⟩, q)
    else
      let index := slotIndex CAP head
      match writeSlot q.buffer index item with
      | .error fault => .error fault
      | .ok buffer => .ok (.ok (), { q with buffer := buffer, head := head + 1 })

def SpscQueue.popInner (q : SpscQueue T CAP) : Except Fault (Option T × SpscQueue T CAP) :=
  if CAP = 0 then .error .capacityZero
  else
    let tail := q.tail
    let head := q.head
    if tail = head then .ok (none, q)
    else
      let index := slotIndex CAP tail
      match assumeInitRead q.buffer index with
      | .error fault => .error fault
      | .ok (item, buffer) => .ok (some item, { q with buffer := buffer, tail := tail + 1 })

def SpscQueue.push (q : SpscQueue T CAP) (item : T) := q.pushInner item
def SpscQueue.pop (q : SpscQueue T CAP) := q.popInner

theorem push_accepted_cases {q r : SpscQueue T CAP} {item : T}
    (ran : q.push item = .ok (.ok (), r)) :
    CAP ≠ 0 ∧ countersFull CAP q.head q.tail = false ∧ slotIndex CAP q.head < CAP ∧
      r = ⟨q.buffer.setIfInBounds (slotIndex CAP q.head) (some item), q.head + 1, q.tail⟩ := by
  simp only [SpscQueue.push, SpscQueue.pushInner, writeSlot] at ran
  split at ran
  · simp at ran
  · rename_i positive
    split at ran
    · simp at ran
    · rename_i room
      split at ran
      · simp at ran
      · rename_i buffer wrote
        split at wrote
        · rename_i inside
          simp only [Except.ok.injEq, Prod.mk.injEq, true_and] at ran wrote
          subst r; subst buffer
          exact ⟨positive, by simpa using room, inside, rfl⟩
        · simp at wrote

theorem pop_returned_cases {q r : SpscQueue T CAP} {item : T}
    (ran : q.pop = .ok (some item, r)) :
    CAP ≠ 0 ∧ q.tail ≠ q.head ∧ q.buffer[slotIndex CAP q.tail]? = some (some item) ∧
      r = ⟨q.buffer.setIfInBounds (slotIndex CAP q.tail) none, q.head, q.tail + 1⟩ := by
  simp only [SpscQueue.pop, SpscQueue.popInner, assumeInitRead] at ran
  split at ran
  · simp at ran
  · rename_i positive
    split at ran
    · simp at ran
    · rename_i more
      split at ran
      · simp at ran
      · rename_i value buffer read
        split at read
        · simp at read
        · simp at read
        · rename_i held
          simp only [Except.ok.injEq, Prod.mk.injEq, Option.some.injEq] at ran read
          obtain ⟨rfl, rfl⟩ := ran
          obtain ⟨rfl, rfl⟩ := read
          exact ⟨positive, more, held, rfl⟩

theorem remaining_decreases {q r : SpscQueue T CAP} {item : T}
    (ran : q.popInner = .ok (some item, r)) :
    (r.head - r.tail).toNat < (q.head - q.tail).toNat := by
  obtain ⟨_, unequal, _, rfl⟩ := pop_returned_cases ran
  have distinct : q.tail.toNat ≠ q.head.toNat := fun same => unequal (UInt64.toNat_inj.mp same)
  have headFits := q.head.toNat_lt
  have tailFits := q.tail.toNat_lt
  rw [UInt64.toNat_sub, UInt64.toNat_sub, UInt64.toNat_add]
  simp only [UInt64.reduceToNat]
  omega

/-- while self.pop().is_some() {}, with the items it drops. Every successful
    pop brings tail one step closer to head modulo 2^64. -/
def SpscQueue.drop (q : SpscQueue T CAP) : Except Fault (List T) :=
  match _ran : q.popInner with
  | .error fault => .error fault
  | .ok (none, _) => .ok []
  | .ok (some item, r) =>
      match r.drop with
      | .error fault => .error fault
      | .ok rest => .ok (item :: rest)
termination_by (q.head - q.tail).toNat
decreasing_by exact remaining_decreases _ran

/-- The counters are the running numbers of the oldest held item and of the
    next one, modulo 2^64, and the slots hold exactly the held items. -/
structure Tracks (q : SpscQueue T CAP) (first : Nat) (held : List T) : Prop where
  tail_eq : q.tail.toNat = first % 2 ^ 64
  head_eq : q.head.toNat = (first + held.length) % 2 ^ 64
  bounded : held.length ≤ CAP
  holds : Holds (2 ^ 64) q.buffer first held

theorem counter_distance {newer older : UInt64} {first count : Nat}
    (olderEq : older.toNat = first % 2 ^ 64) (newerEq : newer.toNat = (first + count) % 2 ^ 64)
    (short : count < 2 ^ 64) : (newer - older).toNat = count := by
  rw [UInt64.toNat_sub]
  omega

theorem counter_succ {counter : UInt64} {number : Nat}
    (eq : counter.toNat = number % 2 ^ 64) : (counter + 1).toNat = (number + 1) % 2 ^ 64 := by
  rw [UInt64.toNat_add, eq]
  simp only [UInt64.reduceToNat]
  omega

theorem counters_equal_iff {newer older : UInt64} {first count : Nat}
    (olderEq : older.toNat = first % 2 ^ 64) (newerEq : newer.toNat = (first + count) % 2 ^ 64)
    (short : count < 2 ^ 64) : older = newer ↔ count = 0 := by
  rw [← UInt64.toNat_inj]
  omega

theorem counters_full_iff {newer older : UInt64} {first count : Nat} (fits : CAP < 2 ^ 64)
    (olderEq : older.toNat = first % 2 ^ 64) (newerEq : newer.toNat = (first + count) % 2 ^ 64)
    (bounded : count ≤ CAP) : countersFull CAP newer older = true ↔ count = CAP := by
  rw [countersFull, counter_distance olderEq newerEq (by omega), beq_iff_eq]

theorem slot_index_eq {counter : UInt64} {number : Nat} (eq : counter.toNat = number % 2 ^ 64) :
    slotIndex CAP counter = slot (2 ^ 64) CAP number := by
  rw [slotIndex, eq, slot]

theorem tracks_new : Tracks (SpscQueue.new : SpscQueue T CAP) 0 [] :=
  ⟨rfl, rfl, Nat.zero_le _, holds_blank _ _⟩

section
variable {q : SpscQueue T CAP} {first : Nat} {held : List T}
  (positive : 0 < CAP) (fits : CAP < 2 ^ 64) (tracks : Tracks q first held)

include positive fits tracks

theorem push_full (item : T) (full : held.length = CAP) :
    q.push item = .ok (.error ⟨⟩, q) := by
  have check := (counters_full_iff fits tracks.tail_eq tracks.head_eq tracks.bounded).mpr full
  simp [SpscQueue.push, SpscQueue.pushInner, check, Nat.ne_of_gt positive]

theorem push_room (item : T) (room : held.length < CAP) :
    q.push item = .ok (.ok (), ⟨q.buffer.setIfInBounds
      (slot (2 ^ 64) CAP (first + held.length)) (some item), q.head + 1, q.tail⟩) := by
  have check : countersFull CAP q.head q.tail = false := by
    rw [← Bool.not_eq_true, counters_full_iff fits tracks.tail_eq tracks.head_eq tracks.bounded]
    omega
  have index := slot_lt (2 ^ 64) (first + held.length) positive
  have wrote : writeSlot q.buffer (slotIndex CAP q.head) item =
      .ok (q.buffer.setIfInBounds (slot (2 ^ 64) CAP (first + held.length)) (some item)) := by
    unfold writeSlot
    rw [slot_index_eq tracks.head_eq, if_pos index]
  simp [SpscQueue.push, SpscQueue.pushInner, check, Nat.ne_of_gt positive, wrote]

omit positive in
theorem push_tracks (item : T) (room : held.length < CAP)
    (clear : ¬ Clashes (2 ^ 64) CAP first held.length) :
    Tracks (⟨q.buffer.setIfInBounds (slot (2 ^ 64) CAP (first + held.length)) (some item),
      q.head + 1, q.tail⟩ : SpscQueue T CAP) first (held ++ [item]) := by
  refine ⟨tracks.tail_eq, ?_, by simp; omega, holds_store fits tracks.holds room clear item⟩
  rw [counter_succ tracks.head_eq]
  simp [Nat.add_assoc]

omit fits in
theorem pop_empty (empty : held = []) : q.pop = .ok (none, q) := by
  subst held
  have same := (counters_equal_iff tracks.tail_eq tracks.head_eq (by simp)).mpr rfl
  simp [SpscQueue.pop, SpscQueue.popInner, same, Nat.ne_of_gt positive]

theorem pop_oldest {item : T} {rest : List T} (shape : held = item :: rest) :
    q.pop = .ok (some item, ⟨q.buffer.setIfInBounds (slot (2 ^ 64) CAP first) none,
      q.head, q.tail + 1⟩) := by
  subst held
  have bound := tracks.bounded
  have unequal : q.tail ≠ q.head := by
    rw [Ne, counters_equal_iff tracks.tail_eq tracks.head_eq (by omega)]
    simp
  have read : assumeInitRead q.buffer (slotIndex CAP q.tail) =
      .ok (item, q.buffer.setIfInBounds (slot (2 ^ 64) CAP first) none) := by
    unfold assumeInitRead
    rw [slot_index_eq tracks.tail_eq, holds_oldest tracks.holds]
  simp [SpscQueue.pop, SpscQueue.popInner, unequal, Nat.ne_of_gt positive, read]

omit positive fits in
theorem pop_tracks {item : T} {rest : List T} (shape : held = item :: rest) :
    Tracks (⟨q.buffer.setIfInBounds (slot (2 ^ 64) CAP first) none, q.head, q.tail + 1⟩ :
      SpscQueue T CAP) (first + 1) rest := by
  subst held
  have bound := tracks.bounded
  refine ⟨counter_succ tracks.tail_eq, ?_, ?_, holds_take tracks.holds⟩
  · rw [tracks.head_eq, List.length_cons, Nat.add_assoc, Nat.add_comm 1]
  · rw [List.length_cons] at bound
    omega

end

theorem drop_held (positive : 0 < CAP) (fits : CAP < 2 ^ 64) {q : SpscQueue T CAP}
    {first : Nat} {held : List T} (tracks : Tracks q first held) : q.drop = .ok held := by
  induction held generalizing q first with
  | nil =>
    have ended : q.popInner = .ok (none, q) := pop_empty positive tracks rfl
    rw [SpscQueue.drop]
    split <;> simp_all
  | cons item rest ih =>
    have taken := pop_oldest positive fits tracks rfl
    have later := ih (pop_tracks tracks rfl)
    rw [SpscQueue.pop] at taken
    rw [SpscQueue.drop]
    split
    · simp_all
    · simp_all
    · rename_i other r ran
      rw [taken] at ran
      simp only [Except.ok.injEq, Prod.mk.injEq, Option.some.injEq] at ran
      obtain ⟨rfl, rfl⟩ := ran
      rw [later]

end CellQueue
