import CellKernel.QueueInterleaving

/-
The counters of one producer and one consumer in runs of any length, across
their wrap at 2^64. Nothing is said about the slots, so no run is excluded.
-/
namespace CellInterleaving
open CellRuns CellQueue
variable {T : Type} {CAP : Nat}

def PushPc.resting : PushPc T → Bool
  | .idle => true
  | _ => false

def PopPc.resting : PopPc T → Bool
  | .idle => true
  | _ => false

/-- The steps of an operation that are left, counting those of the next one. -/
def PushPc.left : PushPc T → Nat
  | .idle => 4
  | .loaded _ _ => 3
  | .admitted _ _ => 2
  | .written _ _ => 1

def PopPc.left : PopPc T → Nat
  | .idle => 4
  | .loaded _ => 3
  | .admitted _ => 2
  | .taken _ _ => 1

/-- Past the capacity check and before the publication. -/
def PushPc.pastCheck : PushPc T → Bool
  | .idle => false
  | .loaded _ _ => false
  | .admitted _ _ => true
  | .written _ _ => true

def PopPc.pastCheck : PopPc T → Bool
  | .idle => false
  | .loaded _ => false
  | .admitted _ => true
  | .taken _ _ => true

structure Counters (w : World Unit Unit T CAP) : Prop where
  head_eq : w.queue.head.toNat = w.accepted.length % 2 ^ 64
  tail_eq : w.queue.tail.toNat = w.returned.length % 2 ^ 64
  behind : w.returned.length ≤ w.accepted.length
  bounded : w.accepted.length ≤ w.returned.length + CAP
  push_current : ∀ head, (w.pusher ()).head = some head → head = w.queue.head
  push_room : (w.pusher ()).pastCheck = true → w.accepted.length < w.returned.length + CAP
  pop_current : ∀ tail, (w.popper ()).tail = some tail → tail = w.queue.tail
  pop_more : (w.popper ()).pastCheck = true → w.returned.length < w.accepted.length

abbrev Instant := UInt64 × UInt64

def World.published (w : World Unit Unit T CAP) : Instant := (w.queue.head, w.queue.tail)

theorem counters_new : Counters (World.new : World Unit Unit T CAP) := by
  constructor
  · rfl
  · rfl
  · exact Nat.le_refl 0
  · exact Nat.zero_le _
  · intro head loaded
    cases loaded
  · intro past
    cases past
  · intro tail loaded
    cases loaded
  · intro past
    cases past

section
variable {w : World Unit Unit T CAP} (counters : Counters w)
include counters

theorem head_count : w.queue.head.toNat =
    (w.returned.length + (w.accepted.length - w.returned.length)) % 2 ^ 64 := by
  have behind := counters.behind
  rw [counters.head_eq]
  congr 1
  omega

theorem published_full_iff (fits : CAP < 2 ^ 64) :
    countersFull CAP w.queue.head w.queue.tail = true ↔
      w.accepted.length = w.returned.length + CAP := by
  have behind := counters.behind
  have bounded := counters.bounded
  rw [counters_full_iff fits counters.tail_eq (head_count counters) (by omega)]
  omega

theorem published_empty_iff (fits : CAP < 2 ^ 64) :
    w.queue.tail = w.queue.head ↔ w.accepted.length = w.returned.length := by
  have behind := counters.behind
  have bounded := counters.bounded
  rw [counters_equal_iff counters.tail_eq (head_count counters) (by omega)]
  omega

theorem counters_move_pusher {p : Unit} {pc : PushPc T}
    (current : ∀ head, pc.head = some head → head = w.queue.head)
    (room : pc.pastCheck = true → w.accepted.length < w.returned.length + CAP) :
    Counters (w.movePusher p pc) :=
  ⟨counters.head_eq, counters.tail_eq, counters.behind, counters.bounded, by simpa using current,
    by simpa using room, counters.pop_current, counters.pop_more⟩

theorem counters_move_popper {c : Unit} {pc : PopPc T}
    (current : ∀ tail, pc.tail = some tail → tail = w.queue.tail)
    (more : pc.pastCheck = true → w.returned.length < w.accepted.length) :
    Counters (w.movePopper c pc) :=
  ⟨counters.head_eq, counters.tail_eq, counters.behind, counters.bounded, counters.push_current,
    counters.push_room, by simpa using current, by simpa using more⟩

end

section
variable {w v : World Unit Unit T CAP}

theorem counters_push_check (fits : CAP < 2 ^ 64) (counters : Counters w) {p : Unit}
    (ran : step w (.pushCheck p) = some v) : Counters v := by
  obtain ⟨item, head, at_loaded, ⟨full, rfl⟩ | ⟨room, rfl⟩⟩ := push_check_cases ran
  · exact counters_move_pusher counters (by simp [PushPc.head]) (by simp [PushPc.pastCheck])
  · have current := counters.push_current head (by rw [at_loaded]; rfl)
    have bounded := counters.bounded
    rw [current, ← Bool.not_eq_true, published_full_iff counters fits] at room
    apply counters_move_pusher counters
    · simp [PushPc.head, current]
    · intro _
      omega

theorem counters_push_write (counters : Counters w) {p : Unit}
    (ran : step w (.pushWrite p) = some v) : Counters v := by
  obtain ⟨item, head, at_admitted, _, rfl⟩ := push_write_cases ran
  have current := counters.push_current head (by rw [at_admitted]; rfl)
  have room := counters.push_room (by rw [at_admitted]; rfl)
  have moved : Counters (w.movePusher p (.written item head)) :=
    counters_move_pusher counters (by simp [PushPc.head, current]) fun _ => room
  exact ⟨moved.head_eq, moved.tail_eq, moved.behind, moved.bounded, moved.push_current,
    moved.push_room, moved.pop_current, moved.pop_more⟩

/-- Publishing an item uses up the room that the check has seen. -/
theorem counters_push_publish (counters : Counters w) {p : Unit}
    (ran : step w (.pushPublish p) = some v) : Counters v := by
  obtain ⟨item, head, at_written, rfl⟩ := push_publish_cases ran
  have current := counters.push_current head (by rw [at_written]; rfl)
  have room := counters.push_room (by rw [at_written]; rfl)
  have behind := counters.behind
  have longer : (w.accepted ++ [item]).length = w.accepted.length + 1 := List.length_append
  constructor
  · show (head + 1).toNat = (w.accepted ++ [item]).length % 2 ^ 64
    rw [current, counter_succ counters.head_eq, longer]
  · exact counters.tail_eq
  · show w.returned.length ≤ (w.accepted ++ [item]).length
    omega
  · show (w.accepted ++ [item]).length ≤ w.returned.length + CAP
    omega
  · simp [PushPc.head]
  · simp [PushPc.pastCheck]
  · exact counters.pop_current
  · intro past
    have more := counters.pop_more past
    show w.returned.length < (w.accepted ++ [item]).length
    omega

theorem counters_pop_check (fits : CAP < 2 ^ 64) (counters : Counters w) {c : Unit}
    (ran : step w (.popCheck c) = some v) : Counters v := by
  obtain ⟨tail, at_loaded, ⟨empty, rfl⟩ | ⟨more, rfl⟩⟩ := pop_check_cases ran
  · exact counters_move_popper counters (by simp [PopPc.tail]) (by simp [PopPc.pastCheck])
  · have current := counters.pop_current tail (by rw [at_loaded]; rfl)
    have behind := counters.behind
    rw [current, Ne, published_empty_iff counters fits] at more
    apply counters_move_popper counters
    · simp [PopPc.tail, current]
    · intro _
      omega

theorem counters_pop_read (counters : Counters w) {c : Unit} {garbage : T}
    (ran : step w (.popRead c garbage) = some v) : Counters v := by
  obtain ⟨tail, found, at_admitted, _, rfl⟩ := pop_read_cases ran
  have current := counters.pop_current tail (by rw [at_admitted]; rfl)
  have more := counters.pop_more (by rw [at_admitted]; rfl)
  have moved : Counters (w.movePopper c (.taken (found.getD garbage) tail)) :=
    counters_move_popper counters (by simp [PopPc.tail, current]) fun _ => more
  exact ⟨moved.head_eq, moved.tail_eq, moved.behind, moved.bounded, moved.push_current,
    moved.push_room, moved.pop_current, moved.pop_more⟩

/-- Releasing a slot uses up the item that the check has seen. -/
theorem counters_pop_release (counters : Counters w) {c : Unit}
    (ran : step w (.popRelease c) = some v) : Counters v := by
  obtain ⟨item, tail, at_taken, rfl⟩ := pop_release_cases ran
  have current := counters.pop_current tail (by rw [at_taken]; rfl)
  have more := counters.pop_more (by rw [at_taken]; rfl)
  have bounded := counters.bounded
  have longer : (w.returned ++ [item]).length = w.returned.length + 1 := List.length_append
  constructor
  · exact counters.head_eq
  · show (tail + 1).toNat = (w.returned ++ [item]).length % 2 ^ 64
    rw [current, counter_succ counters.tail_eq, longer]
  · show (w.returned ++ [item]).length ≤ w.accepted.length
    omega
  · show w.accepted.length ≤ (w.returned ++ [item]).length + CAP
    omega
  · exact counters.push_current
  · intro past
    have room := counters.push_room past
    show w.accepted.length < (w.returned ++ [item]).length + CAP
    omega
  · simp [PopPc.tail]
  · simp [PopPc.pastCheck]

theorem counters_step (fits : CAP < 2 ^ 64) (counters : Counters w) {a : Action Unit Unit T}
    (ran : step w a = some v) : Counters v := by
  cases a with
  | pushLoad p item =>
    obtain ⟨_, rfl⟩ := push_load_cases ran
    exact counters_move_pusher counters (by simp [PushPc.head]) (by simp [PushPc.pastCheck])
  | pushCheck p => exact counters_push_check fits counters ran
  | pushWrite p => exact counters_push_write counters ran
  | pushPublish p => exact counters_push_publish counters ran
  | popLoad c =>
    obtain ⟨_, rfl⟩ := pop_load_cases ran
    exact counters_move_popper counters (by simp [PopPc.tail]) (by simp [PopPc.pastCheck])
  | popCheck c => exact counters_pop_check fits counters ran
  | popRead c garbage => exact counters_pop_read counters ran
  | popRelease c => exact counters_pop_release counters ran

/-- What a step does to the published counters and to the numbers of items that
    were accepted and returned. -/
inductive Published (w v : World Unit Unit T CAP) : Action Unit Unit T → Prop where
  | quiet {a : Action Unit Unit T} (unpublished : a ≠ .pushPublish ())
      (unreleased : a ≠ .popRelease ()) (same : v.published = w.published)
      (accepted : v.accepted.length = w.accepted.length)
      (returned : v.returned.length = w.returned.length) : Published w v a
  | push (moved : v.published = (w.queue.head + 1, w.queue.tail))
      (accepted : v.accepted.length = w.accepted.length + 1)
      (returned : v.returned.length = w.returned.length) : Published w v (.pushPublish ())
  | pop (moved : v.published = (w.queue.head, w.queue.tail + 1))
      (accepted : v.accepted.length = w.accepted.length)
      (returned : v.returned.length = w.returned.length + 1) : Published w v (.popRelease ())

theorem published_step (counters : Counters w) {a : Action Unit Unit T}
    (ran : step w a = some v) : Published w v a := by
  cases a with
  | pushLoad p item =>
    obtain ⟨_, rfl⟩ := push_load_cases ran
    exact .quiet (by simp) (by simp) rfl rfl rfl
  | pushCheck p =>
    obtain ⟨item, head, _, ⟨_, rfl⟩ | ⟨_, rfl⟩⟩ := push_check_cases ran
    · exact .quiet (by simp) (by simp) rfl rfl rfl
    · exact .quiet (by simp) (by simp) rfl rfl rfl
  | pushWrite p =>
    obtain ⟨item, head, _, _, rfl⟩ := push_write_cases ran
    exact .quiet (by simp) (by simp) rfl rfl rfl
  | pushPublish p =>
    obtain ⟨item, head, at_written, rfl⟩ := push_publish_cases ran
    have current := counters.push_current head (by rw [at_written]; rfl)
    rw [current]
    exact .push rfl List.length_append rfl
  | popLoad c =>
    obtain ⟨_, rfl⟩ := pop_load_cases ran
    exact .quiet (by simp) (by simp) rfl rfl rfl
  | popCheck c =>
    obtain ⟨tail, _, ⟨_, rfl⟩ | ⟨_, rfl⟩⟩ := pop_check_cases ran
    · exact .quiet (by simp) (by simp) rfl rfl rfl
    · exact .quiet (by simp) (by simp) rfl rfl rfl
  | popRead c garbage =>
    obtain ⟨tail, found, _, _, rfl⟩ := pop_read_cases ran
    exact .quiet (by simp) (by simp) rfl rfl rfl
  | popRelease c =>
    obtain ⟨item, tail, at_taken, rfl⟩ := pop_release_cases ran
    have current := counters.pop_current tail (by rw [at_taken]; rfl)
    rw [current]
    exact .pop rfl rfl List.length_append

end

end CellInterleaving
