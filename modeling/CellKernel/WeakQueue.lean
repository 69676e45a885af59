import CellKernel.QueueCounters
import CellKernel.ReleaseAcquire

/-
push_inner and pop_inner with the memory orderings of the source. Each party
loads its own counter relaxed and the other's with acquire, and stores its own
with release; a load of the other's counter may return an old value. A slot is
a cell of the memory, so that an access to it can race.
-/
namespace CellWeak
open CellInterleaving CellQueue CellRing ReleaseAcquire
variable {Thread Loc Cell T : Type} {CAP : Nat}

/-- Where a queue is in memory, and the threads at its two ends. -/
structure Place (Thread Loc Cell : Type) where
  head : Loc
  tail : Loc
  slot : Nat → Cell
  producer : Thread
  consumer : Thread
  counters_apart : head ≠ tail
  slots_apart : Function.Injective slot

abbrev Log (Thread Loc : Type) := List (Nat × Message Thread Loc UInt64)

/-- The slots and the two calls under way. The other fields are not in the
    source: what push and pop returned, the messages of the two counters, and
    the epochs of the accesses to the slots. -/
structure Ring (Thread Loc T : Type) (CAP : Nat) where
  buffer : Vector (Option T) CAP
  pusher : PushPc T
  popper : PopPc T
  accepted : List T
  returned : List T
  heads : Log Thread Loc
  tails : Log Thread Loc
  writes : List Nat
  reads : List Nat

def Ring.new : Ring Thread Loc T CAP :=
  ⟨Vector.replicate CAP none, .idle, .idle, [], [], [(0, ⟨0, ⊥⟩)], [(0, ⟨0, ⊥⟩)], [], []⟩

def Ring.stored (r : Ring Thread Loc T CAP) : List T :=
  match r.pusher with
  | .written item _ => r.accepted ++ [item]
  | _ => r.accepted

def Ring.fetched (r : Ring Thread Loc T CAP) : List T :=
  match r.popper with
  | .taken item _ => r.returned ++ [item]
  | _ => r.returned

/-- The time is the one of the message that is loaded or stored. -/
inductive PushAction (T : Type) where
  | load (item : T) (time : Nat)
  | check (time : Nat)
  | write
  | publish (time : Nat)

inductive PopAction (T : Type) where
  | load (time : Nat)
  | check (time : Nat)
  | read (garbage : T)
  | release (time : Nat)

section
variable [DecidableEq Thread] [DecidableEq Loc] [DecidableEq Cell]

def pushStep (p : Place Thread Loc Cell) (m : Memory Thread Loc Cell UInt64)
    (r : Ring Thread Loc T CAP) :
    PushAction T → Option (Memory Thread Loc Cell UInt64 × Ring Thread Loc T CAP)
  | .load item time =>
      match r.pusher with
      | .idle =>
          if CAP = 0 then none
          else (m.load p.producer p.head time .relaxed).map fun (head, m) =>
            (m, { r with pusher := .loaded item head })
      | _ => none
  | .check time =>
      match r.pusher with
      | .loaded item head =>
          (m.load p.producer p.tail time .acquire).map fun (tail, m) =>
            (m, { r with
              pusher := if countersFull CAP head tail then .idle else .admitted item head })
      | _ => none
  | .write =>
      match r.pusher with
      | .admitted item head =>
          match writeSlot r.buffer (slotIndex CAP head) item with
          | .error _ => none
          | .ok buffer =>
              some (m.access p.producer (p.slot (slotIndex CAP head)) true, { r with
                buffer := buffer
                pusher := .written item head
                writes := r.writes ++ [(m.views p.producer).clock p.producer + 1] })
      | _ => none
  | .publish time =>
      match r.pusher with
      | .written item head =>
          (m.store p.producer p.head time .release (head + 1)).map fun m =>
            (m, { r with
              pusher := .idle
              accepted := r.accepted ++ [item]
              heads := r.heads ++ [(time, ⟨head + 1, m.views p.producer⟩)] })
      | _ => none

def popStep (p : Place Thread Loc Cell) (m : Memory Thread Loc Cell UInt64)
    (r : Ring Thread Loc T CAP) :
    PopAction T → Option (Memory Thread Loc Cell UInt64 × Ring Thread Loc T CAP)
  | .load time =>
      match r.popper with
      | .idle =>
          if CAP = 0 then none
          else (m.load p.consumer p.tail time .relaxed).map fun (tail, m) =>
            (m, { r with popper := .loaded tail })
      | _ => none
  | .check time =>
      match r.popper with
      | .loaded tail =>
          (m.load p.consumer p.head time .acquire).map fun (head, m) =>
            (m, { r with popper := if tail = head then .idle else .admitted tail })
      | _ => none
  | .read garbage =>
      match r.popper with
      | .admitted tail =>
          match r.buffer[slotIndex CAP tail]? with
          | none => none
          | some found =>
              some (m.access p.consumer (p.slot (slotIndex CAP tail)) false, { r with
                buffer := r.buffer.setIfInBounds (slotIndex CAP tail) none
                popper := .taken (found.getD garbage) tail
                reads := r.reads ++ [(m.views p.consumer).clock p.consumer + 1] })
      | _ => none
  | .release time =>
      match r.popper with
      | .taken item tail =>
          (m.store p.consumer p.tail time .release (tail + 1)).map fun m =>
            (m, { r with
              popper := .idle
              returned := r.returned ++ [item]
              tails := r.tails ++ [(time, ⟨tail + 1, m.views p.consumer⟩)] })
      | _ => none

end

/-- Every access to a slot is a write of an item by the producer or a read of
    one by the consumer; the message that publishes it tells of it. -/
structure RingInv (p : Place Thread Loc Cell) (m : Memory Thread Loc Cell UInt64)
    (r : Ring Thread Loc T CAP) : Prop where
  heads : Published m p.head p.producer r.heads
  tails : Published m p.tail p.consumer r.tails
  heads_length : r.heads.length = r.accepted.length + 1
  tails_length : r.tails.length = r.returned.length + 1
  head_value : ∀ n e, r.heads[n]? = some e → e.2.value.toNat = n % 2 ^ 64
  tail_value : ∀ n e, r.tails[n]? = some e → e.2.value.toNat = n % 2 ^ 64
  push_loaded : ∀ head, r.pusher.head = some head → head.toNat = r.accepted.length % 2 ^ 64
  pop_loaded : ∀ tail, r.popper.tail = some tail → tail.toNat = r.returned.length % 2 ^ 64
  room : ∃ n, Observed m p.producer p.tail r.tails n ∧ r.accepted.length ≤ n + CAP ∧
    (r.pusher.pastCheck = true → r.accepted.length < n + CAP)
  more : ∃ n, Observed m p.consumer p.head r.heads n ∧ r.returned.length ≤ n ∧
    (r.popper.pastCheck = true → r.returned.length < n)
  fetched_accepted : r.fetched <+: r.accepted
  holds : Holds (2 ^ 64) r.buffer r.fetched.length (r.stored.drop r.fetched.length)
  writes_length : r.writes.length = r.stored.length
  reads_length : r.reads.length = r.fetched.length
  accesses : ∀ i, ∀ a ∈ m.accesses (p.slot i),
    (a.thread = p.producer ∧ ∃ n : Nat, r.writes[n]? = some a.epoch ∧ slot (2 ^ 64) CAP n = i) ∨
      (a.thread = p.consumer ∧ ∃ n : Nat, r.reads[n]? = some a.epoch ∧ slot (2 ^ 64) CAP n = i)
  writes_told : ∀ (n : Nat) e, r.heads[n]? = some e → ∀ (k epoch : Nat), k < n →
    r.writes[k]? = some epoch → epoch ≤ e.2.view.clock p.producer
  reads_told : ∀ (n : Nat) e, r.tails[n]? = some e → ∀ (k epoch : Nat), k < n →
    r.reads[k]? = some epoch → epoch ≤ e.2.view.clock p.consumer
  writes_own : ∀ epoch ∈ r.writes, epoch ≤ (m.views p.producer).clock p.producer
  reads_own : ∀ epoch ∈ r.reads, epoch ≤ (m.views p.consumer).clock p.consumer

section
variable {p : Place Thread Loc Cell} {m m' : Memory Thread Loc Cell UInt64}
  {r r' : Ring Thread Loc T CAP}

theorem ring_frame {stored : Option Loc} {accessed : Option Cell} (inv : RingInv p m r)
    (frame : Frame m m' stored accessed) (head : stored ≠ some p.head)
    (tail : stored ≠ some p.tail) (slots : ∀ i, accessed ≠ some (p.slot i)) :
    RingInv p m' r := by
  obtain ⟨tailsKnown, observedTail, roomTail⟩ := inv.room
  obtain ⟨headsKnown, observedHead, moreHead⟩ := inv.more
  constructor
  · exact frame.published _ _ _ head inv.heads
  · exact frame.published _ _ _ tail inv.tails
  · exact inv.heads_length
  · exact inv.tails_length
  · exact inv.head_value
  · exact inv.tail_value
  · exact inv.push_loaded
  · exact inv.pop_loaded
  · exact ⟨tailsKnown, observed_grows observedTail (frame.grows _), roomTail⟩
  · exact ⟨headsKnown, observed_grows observedHead (frame.grows _), moreHead⟩
  · exact inv.fetched_accepted
  · exact inv.holds
  · exact inv.writes_length
  · exact inv.reads_length
  · intro i a member
    rw [frame.accesses _ (slots i)] at member
    exact inv.accesses i a member
  · exact inv.writes_told
  · exact inv.reads_told
  · intro epoch member
    exact (inv.writes_own epoch member).trans ((frame.grows _).2 _)
  · intro epoch member
    exact (inv.reads_own epoch member).trans ((frame.grows _).2 _)

theorem ring_new (initial : Loc → UInt64) (p : Place Thread Loc Cell)
    (head : initial p.head = 0) (tail : initial p.tail = 0) :
    RingInv p (Memory.start initial) (Ring.new : Ring Thread Loc T CAP) := by
  let m : Memory Thread Loc Cell UInt64 := Memory.start initial
  have heads : Published m p.head p.producer _ := published_start initial p.head p.producer
  have tails : Published m p.tail p.consumer _ := published_start initial p.tail p.consumer
  rw [head] at heads
  rw [tail] at tails
  have zero : ∀ (n : Nat) (e : Nat × Message Thread Loc UInt64),
      [(0, (⟨0, ⊥⟩ : Message Thread Loc UInt64))][n]? = some e → n = 0 ∧ e.2.value = 0 := by
    intro n e there
    cases n with
    | zero =>
      cases there
      exact ⟨rfl, rfl⟩
    | succ n => cases there
  constructor
  · exact heads
  · exact tails
  · rfl
  · rfl
  · intro n e there
    obtain ⟨rfl, value⟩ := zero n e there
    rw [value]
    rfl
  · intro n e there
    obtain ⟨rfl, value⟩ := zero n e there
    rw [value]
    rfl
  · intro head loaded
    cases loaded
  · intro tail loaded
    cases loaded
  · refine ⟨0, start_observed tails _, Nat.zero_le _, ?_⟩
    intro past
    cases past
  · refine ⟨0, start_observed heads _, Nat.zero_le _, ?_⟩
    intro past
    cases past
  · exact List.prefix_refl _
  · exact holds_blank _ _
  · rfl
  · rfl
  · intro i a member
    cases member
  · intro n e there k epoch before
    obtain ⟨rfl, _⟩ := zero n e there
    omega
  · intro n e there k epoch before
    obtain ⟨rfl, _⟩ := zero n e there
    omega
  · intro epoch member
    cases member
  · intro epoch member
    cases member

theorem snoc_lookup {α : Type} {xs : List α} {x e : α} {n : Nat}
    (there : (xs ++ [x])[n]? = some e) :
    (n < xs.length ∧ xs[n]? = some e) ∨ (n = xs.length ∧ e = x) := by
  by_cases inside : n < xs.length
  · rw [List.getElem?_append_left inside] at there
    exact Or.inl ⟨inside, there⟩
  · have upto := (List.getElem?_eq_some_iff.mp there).1
    rw [List.length_append, List.length_singleton] at upto
    have last : n = xs.length := by omega
    subst n
    rw [List.getElem?_concat_length] at there
    cases there
    exact Or.inr ⟨rfl, rfl⟩

theorem observed_inside {i : Thread} {l : Loc} {log : Log Thread Loc} {n : Nat}
    (observed : Observed m i l log n) : n < log.length := by
  obtain ⟨e, there, _⟩ := observed
  exact (List.getElem?_eq_some_iff.mp there).1

theorem stored_unwritten (here : r.pusher.pastWrite = false) : r.stored = r.accepted := by
  unfold Ring.stored
  split
  · rename_i item head written
    rw [written] at here
    cases here
  · rfl

theorem stored_written {item : T} {head : UInt64} (here : r.pusher = .written item head) :
    r.stored = r.accepted ++ [item] := by
  simp only [Ring.stored, here]

theorem fetched_unread (here : r.popper.pastRead = false) : r.fetched = r.returned := by
  unfold Ring.fetched
  split
  · rename_i item tail taken
    rw [taken] at here
    cases here
  · rfl

theorem fetched_taken {item : T} {tail : UInt64} (here : r.popper = .taken item tail) :
    r.fetched = r.returned ++ [item] := by
  simp only [Ring.fetched, here]

theorem accepted_room (inv : RingInv p m r) :
    r.accepted.length ≤ r.returned.length + CAP := by
  obtain ⟨n, observed, room, _⟩ := inv.room
  have inside := observed_inside observed
  have length := inv.tails_length
  omega

theorem returned_fetched (r : Ring Thread Loc T CAP) : r.returned <+: r.fetched := by
  unfold Ring.fetched
  split
  · exact List.prefix_append ..
  · exact List.prefix_refl _

theorem accepted_stored (r : Ring Thread Loc T CAP) : r.accepted <+: r.stored := by
  unfold Ring.stored
  split
  · exact List.prefix_append ..
  · exact List.prefix_refl _

theorem ring_returned_accepted (inv : RingInv p m r) : r.returned <+: r.accepted :=
  (returned_fetched r).trans inv.fetched_accepted

/-- A push that has not written goes on without touching the slots. -/
theorem ring_pusher (inv : RingInv p m r) (pc : PushPc T)
    (before : r.pusher.pastWrite = false) (after : pc.pastWrite = false)
    (loaded : ∀ head, pc.head = some head → head.toNat = r.accepted.length % 2 ^ 64)
    (room : ∃ n, Observed m p.producer p.tail r.tails n ∧ r.accepted.length ≤ n + CAP ∧
      (pc.pastCheck = true → r.accepted.length < n + CAP)) :
    RingInv p m { r with pusher := pc } := by
  have same : ({ r with pusher := pc } : Ring Thread Loc T CAP).stored = r.stored := by
    rw [stored_unwritten before, stored_unwritten after]
  refine ⟨inv.heads, inv.tails, inv.heads_length, inv.tails_length, inv.head_value,
    inv.tail_value, loaded, inv.pop_loaded, room, inv.more, inv.fetched_accepted, ?_, ?_,
    inv.reads_length, inv.accesses, inv.writes_told, inv.reads_told, inv.writes_own,
    inv.reads_own⟩
  · rw [same]
    exact inv.holds
  · rw [same]
    exact inv.writes_length

theorem ring_popper (inv : RingInv p m r) (pc : PopPc T)
    (before : r.popper.pastRead = false) (after : pc.pastRead = false)
    (loaded : ∀ tail, pc.tail = some tail → tail.toNat = r.returned.length % 2 ^ 64)
    (more : ∃ n, Observed m p.consumer p.head r.heads n ∧ r.returned.length ≤ n ∧
      (pc.pastCheck = true → r.returned.length < n)) :
    RingInv p m { r with popper := pc } := by
  have same : ({ r with popper := pc } : Ring Thread Loc T CAP).fetched = r.fetched := by
    rw [fetched_unread before, fetched_unread after]
  refine ⟨inv.heads, inv.tails, inv.heads_length, inv.tails_length, inv.head_value,
    inv.tail_value, inv.push_loaded, loaded, inv.room, more, ?_, ?_, inv.writes_length, ?_,
    inv.accesses, inv.writes_told, inv.reads_told, inv.writes_own, inv.reads_own⟩
  · rw [same]
    exact inv.fetched_accepted
  · rw [same]
    exact inv.holds
  · rw [same]
    exact inv.reads_length

/-- What the loaded tail decides: full for that many pops. -/
theorem full_answer (fits : CAP < 2 ^ 64) {head tail : UInt64} {accepted popped : Nat}
    (headEq : head.toNat = accepted % 2 ^ 64) (tailEq : tail.toNat = popped % 2 ^ 64)
    (behind : popped ≤ accepted) (room : accepted ≤ popped + CAP) :
    countersFull CAP head tail = true ↔ accepted = popped + CAP := by
  have newer : head.toNat = (popped + (accepted - popped)) % 2 ^ 64 := by
    rw [headEq, Nat.add_sub_cancel' behind]
  rw [counters_full_iff fits tailEq newer (by omega)]
  omega

theorem empty_answer (fits : CAP < 2 ^ 64) {head tail : UInt64} {pushed returned : Nat}
    (tailEq : tail.toNat = returned % 2 ^ 64) (headEq : head.toNat = pushed % 2 ^ 64)
    (behind : returned ≤ pushed) (room : pushed ≤ returned + CAP) :
    tail = head ↔ pushed = returned := by
  have newer : head.toNat = (returned + (pushed - returned)) % 2 ^ 64 := by
    rw [headEq, Nat.add_sub_cancel' behind]
  rw [counters_equal_iff tailEq newer (by omega)]
  omega

/-- No two numbers that can be live at once share a slot. -/
def Ring.InRange (r : Ring Thread Loc T CAP) : Prop :=
  CAP ∣ 2 ^ 64 ∨ r.accepted.length < 2 ^ 64

theorem slots_distinct (fits : CAP < 2 ^ 64) (range : r.InRange) {first count : Nat}
    (positive : 0 < count) (short : count < CAP) (upto : first + count ≤ r.accepted.length) :
    slot (2 ^ 64) CAP first ≠ slot (2 ^ 64) CAP (first + count) := by
  intro shared
  obtain ⟨past, low, _⟩ := (slot_eq_iff fits positive short).mp shared
  rcases range with divides | few
  · rw [Nat.mod_eq_zero_of_dvd divides] at low
    omega
  · omega

structure AtWrite (p : Place Thread Loc Cell) (m : Memory Thread Loc Cell UInt64)
    (r : Ring Thread Loc T CAP) (head : UInt64) (popped : Nat) : Prop where
  index : slotIndex CAP head = slot (2 ^ 64) CAP r.accepted.length
  observed : Observed m p.producer p.tail r.tails popped
  upto : popped ≤ r.returned.length
  room : r.accepted.length < popped + CAP

theorem at_write (inv : RingInv p m r) {item : T} {head : UInt64}
    (here : r.pusher = .admitted item head) : ∃ popped, AtWrite p m r head popped := by
  obtain ⟨n, observed, _, room⟩ := inv.room
  have inside := observed_inside observed
  have length := inv.tails_length
  refine ⟨n, ⟨?_, observed, by omega, room (by rw [here]; rfl)⟩⟩
  exact slot_index_eq (inv.push_loaded head (by rw [here]; rfl))

theorem at_write_blank (inv : RingInv p m r) (range : r.InRange)
    {item : T} {head : UInt64} {popped : Nat} (here : r.pusher = .admitted item head)
    (atWrite : AtWrite p m r head popped) :
    (r.stored.drop r.fetched.length).length < CAP ∧
      ¬ Clashes (2 ^ 64) CAP r.fetched.length (r.stored.drop r.fetched.length).length ∧
      r.fetched.length + (r.stored.drop r.fetched.length).length = r.accepted.length := by
  have stored := stored_unwritten (r := r) (by rw [here]; rfl)
  have fetched := inv.fetched_accepted.length_le
  have returned := (returned_fetched r).length_le
  have upto := atWrite.upto
  have room := atWrite.room
  rw [stored, List.length_drop]
  refine ⟨by omega, ?_, by omega⟩
  rcases range with divides | few
  · exact no_clash_of_dvd divides _ _
  · exact no_clash_below (by omega)

/-- Earlier reads of the slot are of items that the producer knows are popped. -/
theorem write_ordered (fits : CAP < 2 ^ 64) (inv : RingInv p m r) (range : r.InRange)
    {item : T} {head : UInt64} (here : r.pusher = .admitted item head) :
    ¬ m.Races p.producer (p.slot (slotIndex CAP head)) true := by
  obtain ⟨popped, atWrite⟩ := at_write inv here
  rintro ⟨a, member, _, late⟩
  rw [atWrite.index] at member
  rcases inv.accesses _ a member with ⟨own, n, wrote, _⟩ | ⟨other, n, read, shared⟩
  · have known := inv.writes_own _ (List.mem_of_getElem? wrote)
    rw [own] at late
    omega
  · obtain ⟨e, there, _⟩ := atWrite.observed
    have told := observed_view inv.tails atWrite.observed there
    have inside := (List.getElem?_eq_some_iff.mp read).1
    have fetched := inv.fetched_accepted.length_le
    have reads := inv.reads_length
    have upto := atWrite.upto
    have room := atWrite.room
    have before : n < popped := by
      by_contra unpopped
      have more : 0 < r.accepted.length - n := by
        by_contra none
        omega
      have distinct : slot (2 ^ 64) CAP n ≠ slot (2 ^ 64) CAP (n + (r.accepted.length - n)) :=
        slots_distinct fits range more (by omega) (by omega)
      rw [Nat.add_sub_cancel' (by omega)] at distinct
      exact distinct shared
    have known := (inv.reads_told popped e there n _ before read).trans (told.2 _)
    rw [other] at late
    omega

theorem write_blank (fits : CAP < 2 ^ 64) (inv : RingInv p m r) (range : r.InRange) {item : T}
    {head : UInt64} (here : r.pusher = .admitted item head) :
    r.buffer[slotIndex CAP head]? = some none := by
  obtain ⟨popped, atWrite⟩ := at_write inv here
  obtain ⟨short, clear, count⟩ := at_write_blank inv range here atWrite
  rw [atWrite.index, ← count]
  exact holds_next_blank fits inv.holds short clear

structure AtRead (p : Place Thread Loc Cell) (m : Memory Thread Loc Cell UInt64)
    (r : Ring Thread Loc T CAP) (tail : UInt64) (pushed : Nat) : Prop where
  index : slotIndex CAP tail = slot (2 ^ 64) CAP r.returned.length
  observed : Observed m p.consumer p.head r.heads pushed
  upto : pushed ≤ r.accepted.length
  more : r.returned.length < pushed

theorem at_read (inv : RingInv p m r) {tail : UInt64} (here : r.popper = .admitted tail) :
    ∃ pushed, AtRead p m r tail pushed := by
  obtain ⟨n, observed, _, more⟩ := inv.more
  have inside := observed_inside observed
  have length := inv.heads_length
  refine ⟨n, ⟨?_, observed, by omega, more (by rw [here]; rfl)⟩⟩
  exact slot_index_eq (inv.pop_loaded tail (by rw [here]; rfl))

/-- Earlier writes of the slot are of items that the consumer knows are pushed. -/
theorem read_ordered (fits : CAP < 2 ^ 64) (inv : RingInv p m r) (range : r.InRange)
    {tail : UInt64} (here : r.popper = .admitted tail) :
    ¬ m.Races p.consumer (p.slot (slotIndex CAP tail)) false := by
  obtain ⟨pushed, atRead⟩ := at_read inv here
  rintro ⟨a, member, _, late⟩
  rw [atRead.index] at member
  rcases inv.accesses _ a member with ⟨other, n, wrote, shared⟩ | ⟨own, n, read, _⟩
  · obtain ⟨e, there, _⟩ := atRead.observed
    have told := observed_view inv.heads atRead.observed there
    have inside := (List.getElem?_eq_some_iff.mp wrote).1
    have writes := inv.writes_length
    have more := atRead.more
    have upto := atRead.upto
    have room := accepted_room inv
    have written : n ≤ r.accepted.length ∧ n < r.returned.length + CAP := by
      by_cases unwritten : r.pusher.pastWrite = false
      · rw [stored_unwritten unwritten] at writes
        omega
      · obtain ⟨popped, observed, _, admitted⟩ := inv.room
        have known := observed_inside observed
        have length := inv.tails_length
        cases pc : r.pusher with
        | written item head =>
          rw [stored_written pc, List.length_append, List.length_singleton] at writes
          have past := admitted (by rw [pc]; rfl)
          omega
        | _ => simp [pc, PushPc.pastWrite] at unwritten
    have before : n < pushed := by
      by_contra unpushed
      have distinct : slot (2 ^ 64) CAP r.returned.length ≠
          slot (2 ^ 64) CAP (r.returned.length + (n - r.returned.length)) :=
        slots_distinct fits range (by omega) (by omega) (by omega)
      rw [Nat.add_sub_cancel' (by omega)] at distinct
      exact distinct shared.symm
    have known := (inv.writes_told pushed e there n _ before wrote).trans (told.2 _)
    rw [other] at late
    omega
  · have known := inv.reads_own _ (List.mem_of_getElem? read)
    rw [own] at late
    omega

theorem read_oldest (inv : RingInv p m r) {tail : UInt64} (here : r.popper = .admitted tail) :
    ∃ oldest, r.accepted[r.returned.length]? = some oldest ∧
      r.stored.drop r.fetched.length = oldest :: r.stored.drop (r.returned.length + 1) ∧
      r.buffer[slotIndex CAP tail]? = some (some oldest) := by
  obtain ⟨pushed, atRead⟩ := at_read inv here
  have more := atRead.more
  have upto := atRead.upto
  have fetched := fetched_unread (r := r) (by rw [here]; rfl)
  have inside : r.returned.length < r.accepted.length := by omega
  have prefixed := accepted_stored r
  have longer : r.returned.length < r.stored.length :=
    Nat.lt_of_lt_of_le inside prefixed.length_le
  have same : r.accepted[r.returned.length] = r.stored[r.returned.length] :=
    prefixed.getElem inside
  have shape : r.stored.drop r.fetched.length =
      r.accepted[r.returned.length] :: r.stored.drop (r.returned.length + 1) := by
    rw [fetched, List.drop_eq_getElem_cons longer, same]
  refine ⟨r.accepted[r.returned.length], List.getElem?_eq_getElem inside, shape, ?_⟩
  have holds := holds_oldest (shape ▸ inv.holds)
  rw [fetched] at holds
  rw [atRead.index]
  exact holds

theorem taken_oldest (inv : RingInv p m r) {item : T} {tail : UInt64}
    (here : r.popper = .taken item tail) :
    r.accepted.drop r.returned.length = item :: r.accepted.drop (r.returned.length + 1) := by
  have within := inv.fetched_accepted
  rw [fetched_taken here] at within
  obtain ⟨rest, split⟩ := within
  rw [← split, List.append_assoc, List.drop_left, List.singleton_append, List.drop_append]
  simp

section
variable [DecidableEq Thread]

theorem push_wrote_inv [DecidableEq Cell] (fits : CAP < 2 ^ 64) (inv : RingInv p m r)
    (range : r.InRange) {item : T} {head : UInt64} (here : r.pusher = .admitted item head) :
    RingInv p (m.access p.producer (p.slot (slotIndex CAP head)) true) { r with
      buffer := r.buffer.setIfInBounds (slotIndex CAP head) (some item)
      pusher := .written item head
      writes := r.writes ++ [(m.views p.producer).clock p.producer + 1] } := by
  obtain ⟨popped, atWrite⟩ := at_write inv here
  obtain ⟨short, clear, count⟩ := at_write_blank inv range here atWrite
  have framed := access_frame m p.producer (p.slot (slotIndex CAP head)) true
  have stored := stored_unwritten (r := r) (by rw [here]; rfl)
  have fetched := inv.fetched_accepted.length_le
  have writes := inv.writes_length
  obtain ⟨headsKnown, observedHead, moreHead⟩ := inv.more
  rw [stored] at writes count short clear
  constructor
  · exact framed.published _ _ _ (by simp) inv.heads
  · exact framed.published _ _ _ (by simp) inv.tails
  · exact inv.heads_length
  · exact inv.tails_length
  · exact inv.head_value
  · exact inv.tail_value
  · intro loaded same
    cases same
    exact inv.push_loaded head (by rw [here]; rfl)
  · exact inv.pop_loaded
  · exact ⟨popped, observed_grows atWrite.observed (framed.grows _),
      Nat.le_of_lt atWrite.room, fun _ => atWrite.room⟩
  · exact ⟨headsKnown, observed_grows observedHead (framed.grows _), moreHead⟩
  · exact inv.fetched_accepted
  · have holds := inv.holds
    rw [stored] at holds
    have next := holds_store fits holds short clear item
    rw [count, ← atWrite.index, ← List.drop_append_of_le_length fetched] at next
    exact next
  · rw [List.length_append, writes, @stored_written _ _ _ _ _ item head rfl]
    simp
  · exact inv.reads_length
  · intro i a member
    by_cases same : i = slotIndex CAP head
    · subst i
      rw [access_own, List.mem_cons] at member
      rcases member with new | old
      · left
        rw [new]
        refine ⟨rfl, r.writes.length, by simp, ?_⟩
        rw [writes, atWrite.index]
      · rcases inv.accesses _ a old with ⟨own, n, wrote, place⟩ | other
        · left
          have inside := (List.getElem?_eq_some_iff.mp wrote).1
          exact ⟨own, n, by rw [List.getElem?_append_left inside]; exact wrote, place⟩
        · exact Or.inr other
    · have apart : p.slot (slotIndex CAP head) ≠ p.slot i :=
        fun shared => same (p.slots_apart shared).symm
      rw [framed.accesses _ (by simpa using apart)] at member
      rcases inv.accesses i a member with ⟨own, n, wrote, place⟩ | other
      · left
        have inside := (List.getElem?_eq_some_iff.mp wrote).1
        exact ⟨own, n, by rw [List.getElem?_append_left inside]; exact wrote, place⟩
      · exact Or.inr other
  · intro n e there k epoch before wrote
    have inside : n < r.heads.length := (List.getElem?_eq_some_iff.mp there).1
    have length := inv.heads_length
    rcases snoc_lookup wrote with ⟨_, old⟩ | ⟨last, _⟩
    · exact inv.writes_told n e there k epoch before old
    · omega
  · exact inv.reads_told
  · intro epoch member
    rcases List.mem_append.mp member with old | new
    · exact (inv.writes_own epoch old).trans ((framed.grows _).2 _)
    · rw [List.mem_singleton.mp new, access_clock]
  · intro epoch member
    exact (inv.reads_own epoch member).trans ((framed.grows _).2 _)

theorem pop_read_inv [DecidableEq Cell] (inv : RingInv p m r) {found : Option T} {garbage : T}
    {tail : UInt64} (here : r.popper = .admitted tail) (there : r.buffer[slotIndex CAP tail]? = some found) :
    RingInv p (m.access p.consumer (p.slot (slotIndex CAP tail)) false) { r with
      buffer := r.buffer.setIfInBounds (slotIndex CAP tail) none
      popper := .taken (found.getD garbage) tail
      reads := r.reads ++ [(m.views p.consumer).clock p.consumer + 1] } := by
  obtain ⟨pushed, atRead⟩ := at_read inv here
  obtain ⟨oldest, next, shape, held⟩ := read_oldest inv here
  rw [held, Option.some.injEq] at there
  subst found
  have framed := access_frame m p.consumer (p.slot (slotIndex CAP tail)) false
  have fetched := fetched_unread (r := r) (by rw [here]; rfl)
  have reads := inv.reads_length
  have returned := ring_returned_accepted inv
  have inside := (List.getElem?_eq_some_iff.mp next).1
  obtain ⟨popped, observedTail, room⟩ := inv.room
  rw [fetched] at reads shape
  constructor
  · exact framed.published _ _ _ (by simp) inv.heads
  · exact framed.published _ _ _ (by simp) inv.tails
  · exact inv.heads_length
  · exact inv.tails_length
  · exact inv.head_value
  · exact inv.tail_value
  · exact inv.push_loaded
  · intro loaded same
    cases same
    exact inv.pop_loaded tail (by rw [here]; rfl)
  · exact ⟨popped, observed_grows observedTail (framed.grows _), room⟩
  · exact ⟨pushed, observed_grows atRead.observed (framed.grows _),
      Nat.le_of_lt atRead.more, fun _ => atRead.more⟩
  · change r.returned ++ [oldest] <+: r.accepted
    obtain ⟨rest, split⟩ := returned
    rw [← split] at next ⊢
    rw [List.getElem?_append_right (Nat.le_refl _), Nat.sub_self] at next
    cases rest with
    | nil => cases next
    | cons first rest =>
      cases next
      exact ⟨rest, by simp⟩
  · have holds := inv.holds
    rw [fetched, shape] at holds
    have taken := holds_take holds
    rw [← atRead.index] at taken
    change Holds (2 ^ 64) _ (r.returned ++ [oldest]).length
      (r.stored.drop (r.returned ++ [oldest]).length)
    rw [List.length_append]
    exact taken
  · exact inv.writes_length
  · change (r.reads ++ [_]).length = (r.returned ++ [oldest]).length
    simp [reads]
  · intro i a member
    by_cases same : i = slotIndex CAP tail
    · subst i
      rw [access_own, List.mem_cons] at member
      rcases member with new | old
      · right
        rw [new]
        refine ⟨rfl, r.reads.length, by simp, ?_⟩
        rw [reads, atRead.index]
      · rcases inv.accesses _ a old with other | ⟨own, n, read, place⟩
        · exact Or.inl other
        · right
          have upto := (List.getElem?_eq_some_iff.mp read).1
          exact ⟨own, n, by rw [List.getElem?_append_left upto]; exact read, place⟩
    · have apart : p.slot (slotIndex CAP tail) ≠ p.slot i :=
        fun shared => same (p.slots_apart shared).symm
      rw [framed.accesses _ (by simpa using apart)] at member
      rcases inv.accesses i a member with other | ⟨own, n, read, place⟩
      · exact Or.inl other
      · right
        have upto := (List.getElem?_eq_some_iff.mp read).1
        exact ⟨own, n, by rw [List.getElem?_append_left upto]; exact read, place⟩
  · exact inv.writes_told
  · intro n e there k epoch before read
    have upto : n < r.tails.length := (List.getElem?_eq_some_iff.mp there).1
    have length := inv.tails_length
    rcases snoc_lookup read with ⟨_, old⟩ | ⟨last, _⟩
    · exact inv.reads_told n e there k epoch before old
    · omega
  · intro epoch member
    exact (inv.writes_own epoch member).trans ((framed.grows _).2 _)
  · intro epoch member
    rcases List.mem_append.mp member with old | new
    · exact (inv.reads_own epoch old).trans ((framed.grows _).2 _)
    · rw [List.mem_singleton.mp new, access_clock]

end

variable [DecidableEq Thread] [DecidableEq Loc]

theorem own_head (inv : RingInv p m r) {time : Nat} {head : UInt64}
    (ran : m.load p.producer p.head time .relaxed = some (head, m')) :
    m' = m ∧ head.toNat = r.accepted.length % 2 ^ 64 := by
  obtain ⟨same, message, there, value⟩ := own_load inv.heads ran
  rw [inv.heads_length, Nat.add_sub_cancel] at there
  rw [value]
  exact ⟨same, inv.head_value _ _ there⟩

theorem own_tail (inv : RingInv p m r) {time : Nat} {tail : UInt64}
    (ran : m.load p.consumer p.tail time .relaxed = some (tail, m')) :
    m' = m ∧ tail.toNat = r.returned.length % 2 ^ 64 := by
  obtain ⟨same, message, there, value⟩ := own_load inv.tails ran
  rw [inv.tails_length, Nat.add_sub_cancel] at there
  rw [value]
  exact ⟨same, inv.tail_value _ _ there⟩

theorem loaded_tail (inv : RingInv p m r) {time : Nat} {tail : UInt64}
    (ran : m.load p.producer p.tail time .acquire = some (tail, m')) :
    RingInv p m' r ∧ ∃ n, Observed m' p.producer p.tail r.tails n ∧
      tail.toNat = n % 2 ^ 64 ∧ n ≤ r.returned.length ∧ r.accepted.length ≤ n + CAP ∧
      ∀ k, Observed m p.producer p.tail r.tails k → k ≤ n := by
  obtain ⟨n, message, there, value, observed, newest⟩ := load_observes inv.tails ran
  obtain ⟨k, known, room, _⟩ := inv.room
  have later := newest k known
  have inside := observed_inside observed
  have length := inv.tails_length
  refine ⟨ring_frame inv (load_frame ran) (by simp) (by simp) (by simp), n, observed, ?_,
    by omega, by omega, newest⟩
  rw [value]
  exact inv.tail_value _ _ there

theorem loaded_head (inv : RingInv p m r) {time : Nat} {head : UInt64}
    (ran : m.load p.consumer p.head time .acquire = some (head, m')) :
    RingInv p m' r ∧ ∃ n, Observed m' p.consumer p.head r.heads n ∧
      head.toNat = n % 2 ^ 64 ∧ n ≤ r.accepted.length ∧ r.returned.length ≤ n ∧
      ∀ k, Observed m p.consumer p.head r.heads k → k ≤ n := by
  obtain ⟨n, message, there, value, observed, newest⟩ := load_observes inv.heads ran
  obtain ⟨k, known, more, _⟩ := inv.more
  have later := newest k known
  have inside := observed_inside observed
  have length := inv.heads_length
  refine ⟨ring_frame inv (load_frame ran) (by simp) (by simp) (by simp), n, observed, ?_,
    by omega, by omega, newest⟩
  rw [value]
  exact inv.head_value _ _ there

theorem push_loaded_inv (inv : RingInv p m r) {item : T} {time : Nat} {head : UInt64}
    (here : r.pusher = .idle) (ran : m.load p.producer p.head time .relaxed = some (head, m')) :
    RingInv p m' { r with pusher := .loaded item head } := by
  obtain ⟨rfl, value⟩ := own_head inv ran
  obtain ⟨n, observed, room, _⟩ := inv.room
  apply ring_pusher inv _ (by rw [here]; rfl) rfl
  · intro loaded same
    cases same
    exact value
  · exact ⟨n, observed, room, fun past => by cases past⟩

theorem push_checked_inv (fits : CAP < 2 ^ 64) (inv : RingInv p m r) {item : T} {time : Nat}
    {head tail : UInt64} (here : r.pusher = .loaded item head)
    (ran : m.load p.producer p.tail time .acquire = some (tail, m')) :
    RingInv p m' { r with
      pusher := if countersFull CAP head tail then .idle else .admitted item head } := by
  obtain ⟨inv', n, observed, value, popped, room, _⟩ := loaded_tail inv ran
  have current := inv.push_loaded head (by rw [here]; rfl)
  have behind := (ring_returned_accepted inv).length_le
  have answer := full_answer fits current value (by omega) room
  split
  · exact ring_pusher inv' _ (by rw [here]; rfl) rfl (fun _ same => by cases same)
      ⟨n, observed, room, fun past => by cases past⟩
  · rename_i unfilled
    apply ring_pusher inv' _ (by rw [here]; rfl) rfl
    · intro loaded same
      cases same
      exact current
    · refine ⟨n, observed, room, fun _ => ?_⟩
      rw [answer] at unfilled
      omega

theorem pop_loaded_inv (inv : RingInv p m r) {time : Nat} {tail : UInt64}
    (here : r.popper = .idle) (ran : m.load p.consumer p.tail time .relaxed = some (tail, m')) :
    RingInv p m' { r with popper := .loaded tail } := by
  obtain ⟨rfl, value⟩ := own_tail inv ran
  obtain ⟨n, observed, more, _⟩ := inv.more
  apply ring_popper inv _ (by rw [here]; rfl) rfl
  · intro loaded same
    cases same
    exact value
  · exact ⟨n, observed, more, fun past => by cases past⟩

theorem pop_checked_inv (fits : CAP < 2 ^ 64) (inv : RingInv p m r) {time : Nat}
    {head tail : UInt64} (here : r.popper = .loaded tail)
    (ran : m.load p.consumer p.head time .acquire = some (head, m')) :
    RingInv p m' { r with popper := if tail = head then .idle else .admitted tail } := by
  obtain ⟨inv', n, observed, value, pushed, more, _⟩ := loaded_head inv ran
  have current := inv.pop_loaded tail (by rw [here]; rfl)
  have room := accepted_room inv
  have answer := empty_answer fits current value more (by omega)
  split
  · exact ring_popper inv' _ (by rw [here]; rfl) rfl (fun _ same => by cases same)
      ⟨n, observed, more, fun past => by cases past⟩
  · rename_i unequal
    apply ring_popper inv' _ (by rw [here]; rfl) rfl
    · intro loaded same
      cases same
      exact current
    · refine ⟨n, observed, more, fun _ => ?_⟩
      rw [answer] at unequal
      omega

theorem push_published_inv (inv : RingInv p m r) {item : T} {time : Nat} {head : UInt64}
    (here : r.pusher = .written item head)
    (ran : m.store p.producer p.head time .release (head + 1) = some m') :
    RingInv p m' { r with
      pusher := .idle
      accepted := r.accepted ++ [item]
      heads := r.heads ++ [(time, ⟨head + 1, m'.views p.producer⟩)] } := by
  have framed := store_frame ran
  have stored := stored_written here
  have writes := inv.writes_length
  have length := inv.heads_length
  obtain ⟨popped, observedTail, _, room⟩ := inv.room
  obtain ⟨pushed, observedHead, more⟩ := inv.more
  have past := room (by rw [here]; rfl)
  constructor
  · exact published_store inv.heads ran
  · exact framed.published _ _ _ (by simpa using p.counters_apart) inv.tails
  · simp [length]
  · exact inv.tails_length
  · intro n e there
    rcases snoc_lookup there with ⟨_, old⟩ | ⟨last, rfl⟩
    · exact inv.head_value n e old
    · rw [last, length]
      exact counter_succ (inv.push_loaded head (by rw [here]; rfl))
  · exact inv.tail_value
  · intro loaded same
    cases same
  · exact inv.pop_loaded
  · refine ⟨popped, observed_grows observedTail (framed.grows _), ?_, fun idle => by cases idle⟩
    simp only [List.length_append, List.length_singleton]
    omega
  · exact ⟨pushed, observed_append (observed_grows observedHead (framed.grows _)) _, more⟩
  · exact inv.fetched_accepted.trans (List.prefix_append ..)
  · have holds := inv.holds
    rw [stored] at holds
    exact holds
  · rw [writes, stored]
    rfl
  · exact inv.reads_length
  · intro i a member
    rw [framed.accesses _ (by simp)] at member
    exact inv.accesses i a member
  · intro n e there k epoch before wrote
    rcases snoc_lookup there with ⟨_, old⟩ | ⟨_, rfl⟩
    · exact inv.writes_told n e old k epoch before wrote
    · exact (inv.writes_own epoch (List.mem_of_getElem? wrote)).trans ((framed.grows _).2 _)
  · exact inv.reads_told
  · intro epoch member
    exact (inv.writes_own epoch member).trans ((framed.grows _).2 _)
  · intro epoch member
    exact (inv.reads_own epoch member).trans ((framed.grows _).2 _)

theorem pop_released_inv (inv : RingInv p m r) {item : T} {time : Nat} {tail : UInt64}
    (here : r.popper = .taken item tail)
    (ran : m.store p.consumer p.tail time .release (tail + 1) = some m') :
    RingInv p m' { r with
      popper := .idle
      returned := r.returned ++ [item]
      tails := r.tails ++ [(time, ⟨tail + 1, m'.views p.consumer⟩)] } := by
  have framed := store_frame ran
  have fetched := fetched_taken here
  have length := inv.tails_length
  obtain ⟨popped, observedTail, room⟩ := inv.room
  obtain ⟨pushed, observedHead, _, more⟩ := inv.more
  have past := more (by rw [here]; rfl)
  have same : Ring.fetched ({ r with
      popper := .idle
      returned := r.returned ++ [item]
      tails := r.tails ++ [(time, ⟨tail + 1, m'.views p.consumer⟩)] } :
        Ring Thread Loc T CAP) = r.fetched := by
    rw [fetched]
    rfl
  constructor
  · exact framed.published _ _ _ (by simpa using p.counters_apart.symm) inv.heads
  · exact published_store inv.tails ran
  · exact inv.heads_length
  · simp [length]
  · exact inv.head_value
  · intro n e there
    rcases snoc_lookup there with ⟨_, old⟩ | ⟨last, rfl⟩
    · exact inv.tail_value n e old
    · rw [last, length]
      exact counter_succ (inv.pop_loaded tail (by rw [here]; rfl))
  · exact inv.push_loaded
  · intro loaded same
    cases same
  · exact ⟨popped, observed_append (observed_grows observedTail (framed.grows _)) _, room⟩
  · refine ⟨pushed, observed_grows observedHead (framed.grows _), ?_, fun idle => by cases idle⟩
    simp only [List.length_append, List.length_singleton]
    omega
  · rw [same]
    exact inv.fetched_accepted
  · rw [same]
    exact inv.holds
  · exact inv.writes_length
  · rw [same]
    exact inv.reads_length
  · intro i a member
    rw [framed.accesses _ (by simp)] at member
    exact inv.accesses i a member
  · exact inv.writes_told
  · intro n e there k epoch before read
    rcases snoc_lookup there with ⟨_, old⟩ | ⟨_, rfl⟩
    · exact inv.reads_told n e old k epoch before read
    · exact (inv.reads_own epoch (List.mem_of_getElem? read)).trans ((framed.grows _).2 _)
  · intro epoch member
    exact (inv.writes_own epoch member).trans ((framed.grows _).2 _)
  · intro epoch member
    exact (inv.reads_own epoch member).trans ((framed.grows _).2 _)

variable [DecidableEq Cell]

inductive PushMove (p : Place Thread Loc Cell) (m : Memory Thread Loc Cell UInt64)
    (r : Ring Thread Loc T CAP) :
    Memory Thread Loc Cell UInt64 → Ring Thread Loc T CAP → Prop where
  | loaded (item : T) (time : Nat) (head : UInt64) (m' : Memory Thread Loc Cell UInt64)
      (here : r.pusher = .idle) (ran : m.load p.producer p.head time .relaxed = some (head, m')) :
      PushMove p m r m' { r with pusher := .loaded item head }
  | checked (item : T) (time : Nat) (head tail : UInt64) (m' : Memory Thread Loc Cell UInt64)
      (here : r.pusher = .loaded item head)
      (ran : m.load p.producer p.tail time .acquire = some (tail, m')) :
      PushMove p m r m' { r with
        pusher := if countersFull CAP head tail then .idle else .admitted item head }
  | wrote (item : T) (head : UInt64) (here : r.pusher = .admitted item head)
      (inside : slotIndex CAP head < CAP) :
      PushMove p m r (m.access p.producer (p.slot (slotIndex CAP head)) true) { r with
        buffer := r.buffer.setIfInBounds (slotIndex CAP head) (some item)
        pusher := .written item head
        writes := r.writes ++ [(m.views p.producer).clock p.producer + 1] }
  | published (item : T) (time : Nat) (head : UInt64) (m' : Memory Thread Loc Cell UInt64)
      (here : r.pusher = .written item head)
      (ran : m.store p.producer p.head time .release (head + 1) = some m') :
      PushMove p m r m' { r with
        pusher := .idle
        accepted := r.accepted ++ [item]
        heads := r.heads ++ [(time, ⟨head + 1, m'.views p.producer⟩)] }

inductive PopMove (p : Place Thread Loc Cell) (m : Memory Thread Loc Cell UInt64)
    (r : Ring Thread Loc T CAP) :
    Memory Thread Loc Cell UInt64 → Ring Thread Loc T CAP → Prop where
  | loaded (time : Nat) (tail : UInt64) (m' : Memory Thread Loc Cell UInt64)
      (here : r.popper = .idle) (ran : m.load p.consumer p.tail time .relaxed = some (tail, m')) :
      PopMove p m r m' { r with popper := .loaded tail }
  | checked (time : Nat) (head tail : UInt64) (m' : Memory Thread Loc Cell UInt64)
      (here : r.popper = .loaded tail)
      (ran : m.load p.consumer p.head time .acquire = some (head, m')) :
      PopMove p m r m' { r with popper := if tail = head then .idle else .admitted tail }
  | read (found : Option T) (garbage : T) (tail : UInt64) (here : r.popper = .admitted tail)
      (there : r.buffer[slotIndex CAP tail]? = some found) :
      PopMove p m r (m.access p.consumer (p.slot (slotIndex CAP tail)) false) { r with
        buffer := r.buffer.setIfInBounds (slotIndex CAP tail) none
        popper := .taken (found.getD garbage) tail
        reads := r.reads ++ [(m.views p.consumer).clock p.consumer + 1] }
  | released (item : T) (time : Nat) (tail : UInt64) (m' : Memory Thread Loc Cell UInt64)
      (here : r.popper = .taken item tail)
      (ran : m.store p.consumer p.tail time .release (tail + 1) = some m') :
      PopMove p m r m' { r with
        popper := .idle
        returned := r.returned ++ [item]
        tails := r.tails ++ [(time, ⟨tail + 1, m'.views p.consumer⟩)] }

theorem push_move {a : PushAction T} (ran : pushStep p m r a = some (m', r')) :
    PushMove p m r m' r' := by
  cases a with
  | load item time =>
    simp only [pushStep] at ran
    split at ran
    · rename_i here
      split at ran
      · cases ran
      · obtain ⟨⟨head, next⟩, loaded, same⟩ := Option.map_eq_some_iff.mp ran
        cases same
        exact .loaded item time head _ here loaded
    · cases ran
  | check time =>
    simp only [pushStep] at ran
    split at ran
    · rename_i item head here
      obtain ⟨⟨tail, next⟩, loaded, same⟩ := Option.map_eq_some_iff.mp ran
      cases same
      exact .checked item time head tail _ here loaded
    · cases ran
  | write =>
    simp only [pushStep, writeSlot] at ran
    split at ran
    · rename_i item head here
      split at ran
      · cases ran
      · rename_i buffer wrote
        split at wrote
        · rename_i inside
          cases wrote
          cases ran
          exact .wrote item head here inside
        · cases wrote
    · cases ran
  | publish time =>
    simp only [pushStep] at ran
    split at ran
    · rename_i item head here
      obtain ⟨next, stored, same⟩ := Option.map_eq_some_iff.mp ran
      cases same
      exact .published item time head _ here stored
    · cases ran

theorem pop_move {a : PopAction T} (ran : popStep p m r a = some (m', r')) :
    PopMove p m r m' r' := by
  cases a with
  | load time =>
    simp only [popStep] at ran
    split at ran
    · rename_i here
      split at ran
      · cases ran
      · obtain ⟨⟨tail, next⟩, loaded, same⟩ := Option.map_eq_some_iff.mp ran
        cases same
        exact .loaded time tail _ here loaded
    · cases ran
  | check time =>
    simp only [popStep] at ran
    split at ran
    · rename_i tail here
      obtain ⟨⟨head, next⟩, loaded, same⟩ := Option.map_eq_some_iff.mp ran
      cases same
      exact .checked time head tail _ here loaded
    · cases ran
  | read garbage =>
    simp only [popStep] at ran
    split at ran
    · rename_i tail here
      split at ran
      · cases ran
      · rename_i found there
        cases ran
        exact .read found garbage tail here there
    · cases ran
  | release time =>
    simp only [popStep] at ran
    split at ran
    · rename_i item tail here
      obtain ⟨next, stored, same⟩ := Option.map_eq_some_iff.mp ran
      cases same
      exact .released item time tail _ here stored
    · cases ran

/-- A step of the producer. The range is of what is accepted before it. -/
theorem push_inv (fits : CAP < 2 ^ 64) (inv : RingInv p m r) (range : r.InRange)
    (move : PushMove p m r m' r') : RingInv p m' r' := by
  cases move with
  | loaded item time head m' here ran => exact push_loaded_inv inv here ran
  | checked item time head tail m' here ran => exact push_checked_inv fits inv here ran
  | wrote item head here inside => exact push_wrote_inv fits inv range here
  | published item time head m' here ran => exact push_published_inv inv here ran

theorem pop_inv (fits : CAP < 2 ^ 64) (inv : RingInv p m r) (move : PopMove p m r m' r') :
    RingInv p m' r' := by
  cases move with
  | loaded time tail m' here ran => exact pop_loaded_inv inv here ran
  | checked time head tail m' here ran => exact pop_checked_inv fits inv here ran
  | read found garbage tail here there => exact pop_read_inv inv here there
  | released item time tail m' here ran => exact pop_released_inv inv here ran

theorem push_effect (move : PushMove p m r m' r') :
    (r'.accepted = r.accepted ∧ r'.returned = r.returned) ∨
      ∃ item, r.pusher.pastCheck = true ∧ r'.accepted = r.accepted ++ [item] ∧
        r'.returned = r.returned := by
  cases move with
  | published item time head m' here ran =>
    exact Or.inr ⟨item, by rw [here]; rfl, rfl, rfl⟩
  | _ => exact Or.inl ⟨rfl, rfl⟩

theorem pop_effect (move : PopMove p m r m' r') :
    (r'.accepted = r.accepted ∧ r'.returned = r.returned) ∨
      ∃ item tail, r.popper = .taken item tail ∧ r'.accepted = r.accepted ∧
        r'.returned = r.returned ++ [item] := by
  cases move with
  | released item time tail m' here ran => exact Or.inr ⟨item, tail, here, rfl, rfl⟩
  | _ => exact Or.inl ⟨rfl, rfl⟩

/-- A refused push knows of no pop that would make room. -/
theorem refused_truth (fits : CAP < 2 ^ 64) (inv : RingInv p m r) {time : Nat}
    (ran : pushStep p m r (.check time) = some (m', r')) (refused : r'.pusher = .idle)
    {known : Nat} (observed : Observed m p.producer p.tail r.tails known) :
    known + CAP ≤ r.accepted.length := by
  simp only [pushStep] at ran
  split at ran
  · rename_i item head here
    obtain ⟨⟨tail, next⟩, loaded, same⟩ := Option.map_eq_some_iff.mp ran
    cases same
    obtain ⟨_, n, _, value, popped, room, newest⟩ := loaded_tail inv loaded
    have behind := (ring_returned_accepted inv).length_le
    have later := newest known observed
    have answer := full_answer fits (inv.push_loaded head (by rw [here]; rfl)) value
      (by omega) room
    have full : countersFull CAP head tail = true := by
      by_contra unfilled
      simp [unfilled] at refused
    rw [answer] at full
    omega
  · cases ran

/-- A pop that finds nothing knows of no push that it has not popped. -/
theorem empty_truth (fits : CAP < 2 ^ 64) (inv : RingInv p m r) {time : Nat}
    (ran : popStep p m r (.check time) = some (m', r')) (refused : r'.popper = .idle)
    {known : Nat} (observed : Observed m p.consumer p.head r.heads known) :
    known ≤ r.returned.length := by
  simp only [popStep] at ran
  split at ran
  · rename_i tail here
    obtain ⟨⟨head, next⟩, loaded, same⟩ := Option.map_eq_some_iff.mp ran
    cases same
    obtain ⟨_, n, _, value, pushed, more, newest⟩ := loaded_head inv loaded
    have room := accepted_room inv
    have later := newest known observed
    have answer := empty_answer fits (inv.pop_loaded tail (by rw [here]; rfl)) value more
      (by omega)
    have empty : tail = head := by
      by_contra unequal
      simp [unequal] at refused
    rw [answer] at empty
    omega
  · cases ran

end

end CellWeak
