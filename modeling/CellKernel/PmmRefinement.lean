import Mathlib.Order.Lattice.Nat
import CellKernel.Pmm
import CellKernel.SetAllocator

/-
The frame allocator refines the set allocator: a state of the bitmaps and
counters describes a set of usable frames and a set of frames handed out, and
each call computes the corresponding request on these sets without a fault.
-/
namespace CellPmm
open CellBitmap CellAllocator

/-- The bitmaps and counters describe the allocator s: usable is its set of
    usable frames, and a frame is marked allocated when it is not usable or
    handed out. -/
structure Represents (pmm : BitmapPmm) (s : SetAllocator Nat) : Prop where
  usable_bits : ∀ f, bit pmm.usable f = true ↔ f ∈ s.usable
  allocated_bits : ∀ f, f < maxFrames →
    (bit pmm.allocated f = true ↔ (f ∈ s.usable → f ∈ s.out))
  usable_count : pmm.usableFrames = s.usable.card
  free_count : pmm.freeFrames = s.free.card
  highest : pmm.maxFrame = s.usable.sup Nat.succ

theorem represents_inside {pmm : BitmapPmm} {s : SetAllocator Nat} (rep : Represents pmm s)
    {f : Nat} (usable : f ∈ s.usable) : f < maxFrames := by
  by_contra past
  have set := (rep.usable_bits f).mpr usable
  rw [bit_outside pmm.usable (by rw [bitmap_size]; omega)] at set
  cases set

theorem represents_count {pmm : BitmapPmm} {s : SetAllocator Nat} (rep : Represents pmm s) :
    s.usable.card ≤ maxFrames := by
  have inside : s.usable ⊆ Finset.range maxFrames := by
    intro f usable
    exact Finset.mem_range.mpr (represents_inside rep usable)
  simpa using Finset.card_le_card inside

theorem represents_unique {p q : BitmapPmm} {s : SetAllocator Nat} (repP : Represents p s)
    (repQ : Represents q s) : p = q := by
  have usable : p.usable = q.usable := by
    apply bitmap_ext
    intro f inside
    rw [Bool.eq_iff_iff, repP.usable_bits, repQ.usable_bits]
  have allocated : p.allocated = q.allocated := by
    apply bitmap_ext
    intro f inside
    rw [bitmap_size] at inside
    rw [Bool.eq_iff_iff, repP.allocated_bits f inside, repQ.allocated_bits f inside]
  have usableFrames := repP.usable_count.trans repQ.usable_count.symm
  have freeFrames := repP.free_count.trans repQ.free_count.symm
  have maxFrame := repP.highest.trans repQ.highest.symm
  cases p; cases q
  simp_all only

theorem represents_blank (pmm : BitmapPmm) : Represents { pmm with
    usable := Vector.replicate bitmapWords 0
    allocated := Vector.replicate bitmapWords (BitVec.allOnes 64)
    usableFrames := 0
    freeFrames := 0
    maxFrame := 0 } SetAllocator.empty where
  usable_bits f := by
    rw [show (0 : BitVec 64) = 0#64 from rfl, bit_zeros]
    simp [SetAllocator.empty, SetAllocator.reset]
  allocated_bits f inside := by
    rw [bit_ones (by rw [bitmap_size]; exact inside)]
    simp [SetAllocator.empty, SetAllocator.reset]
  usable_count := rfl
  free_count := rfl
  highest := rfl

theorem new_represents : Represents .new SetAllocator.empty := represents_blank .new

theorem free_reset (usable : Finset Nat) :
    (SetAllocator.reset usable).free = usable := by
  simp [SetAllocator.free, SetAllocator.reset]

theorem mark_usable_known {pmm : BitmapPmm} {usable : Finset Nat}
    (rep : Represents pmm (.reset usable)) {frame : Nat} (known : frame ∈ usable) :
    pmm.markUsable frame = .ok pmm := by
  have inside := represents_inside rep known
  have set := (rep.usable_bits frame).mpr known
  unfold BitmapPmm.markUsable
  rw [if_neg (by omega), is_usable_bit, set]
  rfl

theorem mark_usable_fresh {pmm : BitmapPmm} {usable : Finset Nat}
    (rep : Represents pmm (.reset usable)) {frame : Nat} (inside : frame < maxFrames)
    (fresh : frame ∉ usable) :
    pmm.markUsable frame = .ok ⟨raise pmm.usable frame, clear pmm.allocated frame,
      pmm.usableFrames + 1, pmm.freeFrames + 1, max pmm.maxFrame (frame + 1)⟩ := by
  have unset : bit pmm.usable frame = false := by
    rw [← Bool.not_eq_true, rep.usable_bits]
    exact fresh
  have few := represents_count rep
  have limit := max_frames_value
  have usableRoom : pmm.usableFrames + 1 < 2 ^ 64 := by
    rw [rep.usable_count]
    omega
  have freeRoom : pmm.freeFrames + 1 < 2 ^ 64 := by
    rw [rep.free_count, free_reset]
    simp only [SetAllocator.reset] at few
    omega
  have frameRoom : frame + 1 < 2 ^ 64 := by omega
  unfold BitmapPmm.markUsable
  rw [if_neg (by omega), is_usable_bit, unset, or_mask _ inside, and_mask _ inside,
    add_usize usableRoom, add_usize freeRoom, add_usize frameRoom]
  rfl

theorem mark_usable_spec {pmm : BitmapPmm} {usable : Finset Nat}
    (rep : Represents pmm (.reset usable)) {frame : Nat} (inside : frame < maxFrames) :
    ∃ marked, pmm.markUsable frame = .ok marked ∧
      Represents marked (.reset (insert frame usable)) := by
  by_cases known : frame ∈ usable
  · exists pmm
    rw [Finset.insert_eq_of_mem known]
    exact ⟨mark_usable_known rep known, rep⟩
  · refine ⟨_, mark_usable_fresh rep inside known, ?_⟩
    have size : frame < bitmapWords * 64 := by rw [bitmap_size]; exact inside
    constructor
    · intro f
      rw [bit_raise _ size, Bool.or_eq_true, rep.usable_bits]
      simp [SetAllocator.reset, or_comm]
    · intro f bound
      rw [bit_clear _ size, Bool.and_eq_true, rep.allocated_bits f bound]
      simp [SetAllocator.reset, imp_false, and_comm]
    · simp [SetAllocator.reset, rep.usable_count, Finset.card_insert_of_notMem known]
    · rw [free_reset, Finset.card_insert_of_notMem known, rep.free_count, free_reset]
    · simp [SetAllocator.reset, rep.highest, max_comm]

theorem mark_frames_spec (frames : List Nat) (inside : ∀ f ∈ frames, f < maxFrames)
    {pmm : BitmapPmm} {usable : Finset Nat} (rep : Represents pmm (.reset usable)) :
    ∃ marked, pmm.markFrames frames = .ok marked ∧
      Represents marked (.reset (usable ∪ frames.toFinset)) := by
  induction frames generalizing pmm usable with
  | nil =>
    exists pmm
    simpa [BitmapPmm.markFrames] using rep
  | cons frame rest ih =>
    obtain ⟨first, marked, repFirst⟩ := mark_usable_spec rep (inside frame (by simp))
    obtain ⟨last, ran, repLast⟩ := ih (fun f member => inside f (by simp [member])) repFirst
    refine ⟨last, ?_, ?_⟩
    · unfold BitmapPmm.markFrames
      rw [marked]
      exact ran
    · rwa [List.toFinset_cons, Finset.union_insert, ← Finset.insert_union]

def FrameInside (entry : Entry) (frame : Nat) : Prop :=
  entry.entryType = EntryType.USABLE ∧ entry.base.toNat + entry.length.toNat < 2 ^ 64 ∧
    entry.base.toNat ≤ frame * 4096 ∧
    (frame + 1) * 4096 ≤ entry.base.toNat + entry.length.toNat

instance (entry : Entry) (frame : Nat) : Decidable (FrameInside entry frame) :=
  inferInstanceAs (Decidable (_ ∧ _ ∧ _ ∧ _))

def entryFrames (entry : Entry) : Finset Nat :=
  (Finset.range maxFrames).filter (FrameInside entry)

def usableSet (entries : List Entry) : Finset Nat :=
  (Finset.range maxFrames).filter fun frame => ∃ entry ∈ entries, FrameInside entry frame

theorem mem_usable_set (entries : List Entry) (frame : Nat) : frame ∈ usableSet entries ↔
    frame < maxFrames ∧ ∃ entry ∈ entries, FrameInside entry frame := by
  simp [usableSet]

theorem usable_set_cons (entry : Entry) (rest : List Entry) :
    usableSet (entry :: rest) = entryFrames entry ∪ usableSet rest := by
  ext frame
  simp only [usableSet, entryFrames, Finset.mem_filter, Finset.mem_union, List.mem_cons,
    exists_eq_or_imp, and_or_left]

theorem mem_entry_frames (entry : Entry) (usable : entry.entryType = EntryType.USABLE)
    (fits : entry.base.toNat + entry.length.toNat < 2 ^ 64) (frame : Nat) :
    frame ∈ entryFrames entry ↔ (entry.base.toNat + 4095) / 4096 ≤ frame ∧
      frame < min (entry.base.toNat + entry.length.toNat) (2 ^ 32) / 4096 := by
  have limit := max_frames_value
  simp only [entryFrames, FrameInside, usable, fits, Finset.mem_filter, Finset.mem_range, true_and]
  omega

theorem entry_skipped {entry : Entry} (skipped : ¬ (entry.entryType = EntryType.USABLE ∧
    entry.base.toNat + 4095 < 2 ^ 64 ∧ entry.base.toNat + entry.length.toNat < 2 ^ 64)) :
    entryFrames entry = ∅ := by
  have limit := max_frames_value
  apply Finset.filter_eq_empty_iff.mpr
  intro frame inside
  rw [Finset.mem_range] at inside
  intro covered
  obtain ⟨usable, fits, reach, _⟩ := covered
  exact skipped ⟨usable, by omega, fits⟩

theorem mark_entry_skipped {entry : Entry} (pmm : BitmapPmm)
    (skipped : ¬ (entry.entryType = EntryType.USABLE ∧ entry.base.toNat + 4095 < 2 ^ 64 ∧
      entry.base.toNat + entry.length.toNat < 2 ^ 64)) : pmm.markEntry entry = .ok pmm := by
  have page : (frameSize - 1).toNat = 4095 := by decide
  unfold BitmapPmm.markEntry
  by_cases usable : entry.entryType = EntryType.USABLE
  · rw [if_neg (by simpa using usable)]
    by_cases rounds : entry.base.toNat + (frameSize - 1).toNat < 2 ^ 64
    · have wide : ¬ entry.base.toNat + entry.length.toNat < 2 ^ 64 := by
        intro fits
        exact skipped ⟨usable, by omega, fits⟩
      simp only [checked_add_fits rounds, checked_add_wide wide]
    · simp only [checked_add_wide rounds]
  · rw [if_pos usable]

/-- The rounding of the bounds: the inner loop runs over a range that is empty
    where the source tests start against end. -/
theorem mark_entry_range {entry : Entry} (pmm : BitmapPmm)
    (usable : entry.entryType = EntryType.USABLE) (rounds : entry.base.toNat + 4095 < 2 ^ 64)
    (fits : entry.base.toNat + entry.length.toNat < 2 ^ 64) :
    pmm.markEntry entry = pmm.markFrames (List.range' ((entry.base.toNat + 4095) / 4096)
      (min (entry.base.toNat + entry.length.toNat) (2 ^ 32) / 4096 -
        (entry.base.toNat + 4095) / 4096)) := by
  have page : (frameSize - 1).toNat = 4095 := by decide
  have roundsUp : entry.base.toNat + (frameSize - 1).toNat < 2 ^ 64 := by omega
  have startSum := sum_value roundsUp
  have start := page_floor (entry.base + (frameSize - 1))
  have last := limited_value (entry.base + entry.length)
  rw [startSum, page] at start
  rw [sum_value fits] at last
  unfold BitmapPmm.markEntry
  rw [if_neg (by simpa using usable)]
  simp only [checked_add_fits fits, checked_add_fits roundsUp]
  rw [UInt64.toNat_div, UInt64.toNat_div, start, last]
  simp only [ge_iff_le, UInt64.le_iff_toNat_le, start, last]
  rw [show frameSize.toNat = 4096 from rfl, Nat.mul_div_cancel _ (by decide)]
  split
  · rename_i backwards
    have none : min (entry.base.toNat + entry.length.toNat) (2 ^ 32) / 4096 -
        (entry.base.toNat + 4095) / 4096 = 0 := by omega
    rw [none]
    rfl
  · rfl

theorem mark_entry_spec (entry : Entry) {pmm : BitmapPmm} {usable : Finset Nat}
    (rep : Represents pmm (.reset usable)) :
    ∃ marked, pmm.markEntry entry = .ok marked ∧
      Represents marked (.reset (usable ∪ entryFrames entry)) := by
  have limit := max_frames_value
  by_cases considered : entry.entryType = EntryType.USABLE ∧
      entry.base.toNat + 4095 < 2 ^ 64 ∧ entry.base.toNat + entry.length.toNat < 2 ^ 64
  · obtain ⟨isUsable, rounds, fits⟩ := considered
    have listed : (List.range' ((entry.base.toNat + 4095) / 4096)
        (min (entry.base.toNat + entry.length.toNat) (2 ^ 32) / 4096 -
          (entry.base.toNat + 4095) / 4096)).toFinset = entryFrames entry := by
      ext frame
      rw [List.mem_toFinset, List.mem_range'_1, mem_entry_frames entry isUsable fits]
      omega
    rw [mark_entry_range pmm isUsable rounds fits, ← listed]
    apply mark_frames_spec _ _ rep
    intro frame member
    rw [List.mem_range'_1] at member
    omega
  · exists pmm
    rw [entry_skipped considered, Finset.union_empty]
    exact ⟨mark_entry_skipped pmm considered, rep⟩

theorem mark_entries_spec (entries : List Entry) {pmm : BitmapPmm} {usable : Finset Nat}
    (rep : Represents pmm (.reset usable)) :
    ∃ marked, pmm.markEntries entries = .ok marked ∧
      Represents marked (.reset (usable ∪ usableSet entries)) := by
  induction entries generalizing pmm usable with
  | nil =>
    exists pmm
    have none : usableSet [] = ∅ := by simp [usableSet]
    rw [none, Finset.union_empty]
    exact ⟨rfl, rep⟩
  | cons entry rest ih =>
    obtain ⟨first, marked, repFirst⟩ := mark_entry_spec entry rep
    obtain ⟨last, ran, repLast⟩ := ih repFirst
    refine ⟨last, ?_, ?_⟩
    · unfold BitmapPmm.markEntries
      rw [marked]
      exact ran
    · rwa [usable_set_cons, ← Finset.union_assoc]

/-- initialize depends on the entries only, not on the state before it. -/
theorem initialize_spec (pmm : BitmapPmm) (entries : List Entry) :
    ∃ ready, BitmapPmm.initialize pmm entries = .ok (ready.stats, ready) ∧
      Represents ready (.reset (usableSet entries)) := by
  obtain ⟨ready, marked, rep⟩ := mark_entries_spec entries (represents_blank pmm)
  rw [Finset.empty_union] at rep
  refine ⟨ready, ?_, rep⟩
  unfold BitmapPmm.initialize
  simp only [marked, bind, Except.bind, pure, Except.pure]

def BitmapPmm.lowest (pmm : BitmapPmm) (index : Fin bitmapWords) : Nat :=
  index.val * 64 + (pmm.available index).ctz.toNat

theorem allocate_from_skip {pmm : BitmapPmm} {index : Fin bitmapWords}
    (exhausted : pmm.available index = 0)
    (rest : List (Fin bitmapWords)) :
    pmm.allocateFrom (index :: rest) = pmm.allocateFrom rest := dif_pos exhausted

theorem allocate_from_take {pmm : BitmapPmm} {index : Fin bitmapWords}
    (some_free : ¬ pmm.available index = 0)
    (enough : 1 ≤ pmm.freeFrames) (rest : List (Fin bitmapWords)) :
    ∃ frame, pmm.allocateFrom (index :: rest) = .ok (some frame, { pmm with
      allocated := raise pmm.allocated (pmm.lowest index)
      freeFrames := pmm.freeFrames - 1 }) ∧ frame.number = pmm.lowest index := by
  have low := trailing_zeros_lt some_free
  have place := or_mask pmm.allocated (available_frame_lt index some_free)
  have word : (index.val * 64 + (pmm.available index).ctz.toNat) / 64
      = index.val := by omega
  have offset : (index.val * 64 + (pmm.available index).ctz.toNat) % 64
      = (pmm.available index).ctz.toNat := by omega
  rw [word, offset] at place
  refine ⟨⟨pmm.lowest index, small_frame_addressable (available_frame_lt index some_free)⟩, ?_, rfl⟩
  unfold BitmapPmm.allocateFrom
  simp only [some_free, ↓reduceDIte, place, sub_usize enough, bind, Except.bind, pure,
    Except.pure]
  rfl

section
variable {pmm : BitmapPmm} {s : SetAllocator Nat} (rep : Represents pmm s)
include rep

theorem free_bits {f : Nat} (inside : f < maxFrames) :
    (bit pmm.usable f && !bit pmm.allocated f) = true ↔ f ∈ s.free := by
  rw [Bool.and_eq_true, Bool.not_eq_true', ← Bool.not_eq_true, rep.usable_bits,
    rep.allocated_bits f inside, mem_free]
  tauto

theorem available_bit {index : Fin bitmapWords} {f : Nat} (here : f / 64 = index.val) :
    (pmm.available index).getLsbD (f % 64) = true ↔ f ∈ s.free := by
  have inside : f < maxFrames := by
    have bound := index.isLt
    have size := bitmap_size
    omega
  have low : f % 64 < 64 := Nat.mod_lt f (by decide)
  rw [← free_bits rep inside, BitmapPmm.available, bit, bit, here, BitVec.getLsbD_and,
    BitVec.getLsbD_not, Vector.getElem?_eq_getElem index.isLt,
    Vector.getElem?_eq_getElem index.isLt]
  simp [low]

theorem word_exhausted {index : Fin bitmapWords}
    (exhausted : pmm.available index = 0) {f : Nat}
    (member : f ∈ s.free) : f / 64 ≠ index.val := by
  intro here
  have set := (available_bit rep here).mpr member
  rw [exhausted] at set
  simp at set

theorem word_least {index : Fin bitmapWords}
    (some_free : ¬ pmm.available index = 0)
    (earlier : ∀ f ∈ s.free, index.val ≤ f / 64) :
    pmm.lowest index ∈ s.free ∧ ∀ other ∈ s.free, pmm.lowest index ≤ other := by
  have low := trailing_zeros_lt some_free
  have here : pmm.lowest index / 64 = index.val := by unfold BitmapPmm.lowest; omega
  have offset : pmm.lowest index % 64 =
      (pmm.available index).ctz.toNat := by
    unfold BitmapPmm.lowest
    omega
  constructor
  · rw [← available_bit rep here, offset]
    exact BitVec.getLsbD_true_ctz_of_ne_zero some_free
  · intro other member
    by_contra below
    have after := earlier other member
    have sameWord : other / 64 = index.val := by omega
    have set := (available_bit rep sameWord).mpr member
    rw [BitVec.getLsbD_false_of_lt_ctz (by omega)] at set
    cases set

theorem represents_handed_out {f : Nat} (member : f ∈ s.free)
    {t : SetAllocator Nat} (usable : t.usable = s.usable) (out : t.out = insert f s.out) :
    Represents { pmm with allocated := raise pmm.allocated f, freeFrames := pmm.freeFrames - 1 }
      t := by
  obtain ⟨isUsable, notOut⟩ := (mem_free s f).mp member
  have inside := represents_inside rep isUsable
  constructor
  · intro g
    rw [usable]
    exact rep.usable_bits g
  · intro g bound
    rw [bit_raise _ (by rw [bitmap_size]; exact inside), Bool.or_eq_true, decide_eq_true_iff,
      rep.allocated_bits g bound, usable, out, Finset.mem_insert]
    tauto
  · rw [usable]
    exact rep.usable_count
  · have shrunk : t.free = s.free.erase f := by
      ext g
      rw [mem_free, Finset.mem_erase, mem_free, usable, out, Finset.mem_insert]
      tauto
    rw [shrunk, Finset.card_erase_of_mem member, ← rep.free_count]
  · rw [usable]
    exact rep.highest

/-- Scanning a rising list of words that covers every free frame. -/
theorem allocate_from_spec (indices : List (Fin bitmapWords))
    (rising : indices.Pairwise (· < ·))
    (covers : ∀ f ∈ s.free, ∃ index ∈ indices, f / 64 = index.val) :
    ∃ frame after, pmm.allocateFrom indices = .ok (frame, after) ∧
      frame.map PhysicalFrame.number = s.allocate.1 ∧ Represents after s.allocate.2 := by
  induction indices with
  | nil =>
    have none : s.free = ∅ := by
      apply Finset.eq_empty_of_forall_notMem
      intro f member
      obtain ⟨_, listed, _⟩ := covers f member
      cases listed
    rw [allocate_exhausted none]
    exact ⟨Option.none, pmm, rfl, rfl, rep⟩
  | cons index rest ih =>
    obtain ⟨first, risingRest⟩ := List.pairwise_cons.mp rising
    by_cases exhausted : pmm.available index = 0
    · rw [allocate_from_skip exhausted]
      apply ih risingRest
      intro f member
      obtain ⟨found, listed, same⟩ := covers f member
      rcases List.mem_cons.mp listed with here | later
      · exact absurd (here ▸ same) (word_exhausted rep exhausted member)
      · exact ⟨found, later, same⟩
    · have earlier : ∀ f ∈ s.free, index.val ≤ f / 64 := by
        intro f member
        obtain ⟨found, listed, same⟩ := covers f member
        rcases List.mem_cons.mp listed with here | later
        · rw [same, here]
        · have order := first found later
          omega
      obtain ⟨member, least⟩ := word_least rep exhausted earlier
      obtain ⟨handed, usable, out⟩ := allocate_least member least
      have enough : 1 ≤ pmm.freeFrames := by
        rw [rep.free_count]
        exact Finset.card_pos.mpr ⟨_, member⟩
      obtain ⟨frame, taken, number⟩ := allocate_from_take exhausted enough rest
      refine ⟨some frame, _, taken, ?_, represents_handed_out rep member usable out⟩
      rw [handed, Option.map_some, number]

theorem allocate_spec : ∃ frame after, pmm.allocate = .ok (frame, after) ∧
    frame.map PhysicalFrame.number = s.allocate.1 ∧ Represents after s.allocate.2 := by
  unfold BitmapPmm.allocate
  apply allocate_from_spec rep
  · exact List.pairwise_lt_finRange bitmapWords
  · intro f member
    have inside := represents_inside rep ((mem_free s f).mp member).1
    exact ⟨⟨f / 64, word_index_inside inside⟩, List.mem_finRange _, rfl⟩

theorem free_refused {frame : PhysicalFrame} (absent : frame.number ∉ s.out) :
    pmm.free frame = .ok (false, pmm) := by
  unfold BitmapPmm.free
  dsimp only
  rw [is_usable_bit]
  cases usable : bit pmm.usable frame.number with
  | false => rfl
  | true =>
    have member := (rep.usable_bits frame.number).mp usable
    have inside := represents_inside rep member
    have unset : bit pmm.allocated frame.number = false := by
      rw [← Bool.not_eq_true, rep.allocated_bits _ inside]
      intro marked
      exact absent (marked member)
    rw [is_allocated_bit pmm inside, unset]
    rfl

theorem free_accepted {frame : PhysicalFrame} (held : frame.number ∈ s.out) :
    pmm.free frame = .ok (true, { pmm with
      allocated := clear pmm.allocated frame.number, freeFrames := pmm.freeFrames + 1 }) := by
  have usable := s.out_usable held
  have inside := represents_inside rep usable
  have marked : bit pmm.allocated frame.number = true :=
    (rep.allocated_bits _ inside).mpr fun _ => held
  have few : s.free.card ≤ maxFrames :=
    (Finset.card_le_card Finset.sdiff_subset).trans (represents_count rep)
  have limit := max_frames_value
  have room : pmm.freeFrames + 1 < 2 ^ 64 := by
    rw [rep.free_count]
    omega
  unfold BitmapPmm.free
  dsimp only
  rw [is_usable_bit, (rep.usable_bits _).mpr usable, is_allocated_bit pmm inside, marked,
    and_mask _ inside, add_usize room]
  rfl

theorem represents_released {f : Nat} (held : f ∈ s.out) {t : SetAllocator Nat}
    (usable : t.usable = s.usable) (out : t.out = s.out.erase f) :
    Represents { pmm with allocated := clear pmm.allocated f, freeFrames := pmm.freeFrames + 1 }
      t := by
  have isUsable := s.out_usable held
  have inside := represents_inside rep isUsable
  constructor
  · intro g
    rw [usable]
    exact rep.usable_bits g
  · intro g bound
    rw [bit_clear _ (by rw [bitmap_size]; exact inside), Bool.and_eq_true, decide_eq_true_iff,
      rep.allocated_bits g bound, usable, out, Finset.mem_erase]
    constructor
    · intro both member
      exact ⟨both.2, both.1 member⟩
    · intro marked
      constructor
      · intro member
        exact (marked member).2
      · intro same
        subst g
        exact (marked isUsable).1 rfl
  · rw [usable]
    exact rep.usable_count
  · have grown : t.free = insert f s.free := by
      ext g
      rw [mem_free, Finset.mem_insert, mem_free, usable, out, Finset.mem_erase]
      by_cases same : g = f
      · subst g
        simp [isUsable]
      · simp [same]
    have fresh : f ∉ s.free := by
      intro member
      exact ((mem_free s f).mp member).2 held
    rw [grown, Finset.card_insert_of_notMem fresh, ← rep.free_count]
  · rw [usable]
    exact rep.highest

theorem free_spec (frame : PhysicalFrame) : ∃ after,
    pmm.free frame = .ok ((s.release frame.number).1, after) ∧
      Represents after (s.release frame.number).2 := by
  by_cases held : frame.number ∈ s.out
  · rw [release_out held]
    exact ⟨_, free_accepted rep held, represents_released rep held rfl rfl⟩
  · rw [release_refused held]
    exact ⟨pmm, free_refused rep held, rep⟩

end

end CellPmm
