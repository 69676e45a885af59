import CellKernel.PmmRefinement

/-
The frames that initialize marks, read from the memory map alone: neither the
state before nor the order, overlap or repetition of entries has a part in it.
-/
namespace CellPmm
open CellBitmap CellAllocator

/-- Some usable entry contains the whole frame. -/
def MapsFrame (entries : List Entry) (frame : Nat) : Prop :=
  frame < 2 ^ 20 ∧ ∃ entry ∈ entries, FrameInside entry frame

instance (entries : List Entry) (frame : Nat) : Decidable (MapsFrame entries frame) :=
  inferInstanceAs (Decidable (_ ∧ _))

def mappedFrames (entries : List Entry) : Finset Nat :=
  (Finset.range (2 ^ 20)).filter (MapsFrame entries)

/-- The bytes of an entry, counted past 2^64 where its end overflows. -/
def Entry.Holds (entry : Entry) (address : Nat) : Prop :=
  entry.base.toNat ≤ address ∧ address < entry.base.toNat + entry.length.toNat

def FrameHolds (frame address : Nat) : Prop :=
  frame * 4096 ≤ address ∧ address < (frame + 1) * 4096

/-- What the boot protocol promises: no usable entry shares a byte with another type. -/
def UsableApart (entries : List Entry) : Prop :=
  ∀ mapped ∈ entries, ∀ other ∈ entries, mapped.entryType = EntryType.USABLE →
    other.entryType ≠ EntryType.USABLE → ∀ address, mapped.Holds address → ¬ other.Holds address

theorem mem_mapped_frames (entries : List Entry) (frame : Nat) :
    frame ∈ mappedFrames entries ↔ MapsFrame entries frame := by
  rw [mappedFrames, Finset.mem_filter, Finset.mem_range]
  constructor
  · intro member
    exact member.2
  · intro maps
    exact ⟨maps.1, maps⟩

theorem usable_set_mapped (entries : List Entry) : usableSet entries = mappedFrames entries := by
  have limit : maxFrames = 2 ^ 20 := by decide
  ext frame
  rw [mem_usable_set, mem_mapped_frames, MapsFrame, limit]

theorem usable_after_reset {pmm : BitmapPmm} {usable : Finset Nat}
    (rep : Represents pmm (.reset usable)) (frame : Nat) :
    pmm.isUsable frame = .ok (decide (frame ∈ usable)) := by
  rw [is_usable_bit, Except.ok.injEq, Bool.eq_iff_iff, decide_eq_true_iff]
  exact rep.usable_bits frame

theorem allocated_after_reset {pmm : BitmapPmm} {usable : Finset Nat}
    (rep : Represents pmm (.reset usable)) {frame : Nat} (inside : frame < maxFrames) :
    pmm.isAllocated frame = .ok (decide (frame ∉ usable)) := by
  rw [is_allocated_bit pmm inside, Except.ok.injEq, Bool.eq_iff_iff, decide_eq_true_iff,
    rep.allocated_bits frame inside]
  exact imp_congr_right fun _ => iff_of_false (Finset.notMem_empty frame) id

/-- max_frame is one past the greatest usable frame. -/
theorem highest_frame {pmm : BitmapPmm} {s : SetAllocator Nat} (rep : Represents pmm s) :
    (s.usable = ∅ → pmm.maxFrame = 0) ∧
      ∀ greatest ∈ s.usable, (∀ frame ∈ s.usable, frame ≤ greatest) →
        pmm.maxFrame = greatest + 1 := by
  rw [rep.highest]
  constructor
  · intro empty
    rw [empty]
    rfl
  · intro greatest member bounds
    apply le_antisymm
    · apply Finset.sup_le
      intro frame usable
      exact Nat.succ_le_succ (bounds frame usable)
    · exact Finset.le_sup (f := Nat.succ) member

theorem initialize_same (pmm other : BitmapPmm) {entries others : List Entry}
    (same : ∀ frame, MapsFrame entries frame ↔ MapsFrame others frame) :
    BitmapPmm.initialize pmm entries = BitmapPmm.initialize other others := by
  have maps : usableSet entries = usableSet others := by
    ext frame
    rw [usable_set_mapped, usable_set_mapped, mem_mapped_frames, mem_mapped_frames]
    exact same frame
  obtain ⟨ready, ran, rep⟩ := initialize_spec pmm entries
  obtain ⟨ready', ran', rep'⟩ := initialize_spec other others
  rw [maps] at rep
  rw [ran, ran', represents_unique rep rep']

theorem reserved_outside {entries : List Entry} (apart : UsableApart entries) {frame : Nat}
    (maps : MapsFrame entries frame) {reserved : Entry} (member : reserved ∈ entries)
    (unusable : reserved.entryType ≠ EntryType.USABLE) {address : Nat}
    (inFrame : FrameHolds frame address) : ¬ reserved.Holds address := by
  obtain ⟨_, entry, listed, usable, _, first, last⟩ := maps
  apply apart entry listed reserved member usable unusable address
  exact ⟨Nat.le_trans first inFrame.1, Nat.lt_of_lt_of_le inFrame.2 last⟩

/-- Every memory map is marked without a fault, exactly and from whatever state;
    maps that contain the same frames give the same allocator. -/
theorem initialize_marks_map (pmm : BitmapPmm) (entries : List Entry) :
    (∃ ready, BitmapPmm.initialize pmm entries =
        .ok (⟨ready.usableFrames, ready.freeFrames, ready.maxFrame⟩, ready) ∧
      (∀ frame, ready.isUsable frame = .ok (decide (MapsFrame entries frame))) ∧
      (∀ frame, frame < 2 ^ 20 →
        ready.isAllocated frame = .ok (decide (¬ MapsFrame entries frame))) ∧
      ready.usableFrames = (mappedFrames entries).card ∧
      ready.freeFrames = (mappedFrames entries).card ∧
      ((∀ frame, ¬ MapsFrame entries frame) → ready.maxFrame = 0) ∧
      ∀ greatest, MapsFrame entries greatest →
        (∀ frame, MapsFrame entries frame → frame ≤ greatest) →
          ready.maxFrame = greatest + 1) ∧
    (∀ (other : BitmapPmm) (others : List Entry),
      (∀ frame, MapsFrame entries frame ↔ MapsFrame others frame) →
        BitmapPmm.initialize other others = BitmapPmm.initialize pmm entries) ∧
    (∀ (other : BitmapPmm) (others : List Entry), (∀ entry, entry ∈ entries ↔ entry ∈ others) →
      BitmapPmm.initialize other others = BitmapPmm.initialize pmm entries) ∧
    (UsableApart entries → ∀ frame, MapsFrame entries frame →
      ∀ reserved ∈ entries, reserved.entryType ≠ EntryType.USABLE →
        ∀ address, FrameHolds frame address → ¬ reserved.Holds address) := by
  refine ⟨?_, ?_, ?_, ?_⟩
  · obtain ⟨ready, ran, rep⟩ := initialize_spec pmm entries
    rw [usable_set_mapped] at rep
    obtain ⟨none, greatest⟩ := highest_frame rep
    refine ⟨ready, ran, ?_, ?_, rep.usable_count, ?_, ?_, ?_⟩
    · intro frame
      rw [usable_after_reset rep]
      exact congrArg _ (decide_eq_decide.mpr (mem_mapped_frames entries frame))
    · intro frame inside
      rw [allocated_after_reset rep (by rw [max_frames_value]; exact inside)]
      exact congrArg _ (decide_eq_decide.mpr (not_congr (mem_mapped_frames entries frame)))
    · rw [rep.free_count, free_reset]
    · intro unmapped
      apply none
      apply Finset.eq_empty_of_forall_notMem
      intro frame member
      exact unmapped frame ((mem_mapped_frames entries frame).mp member)
    · intro top maps bounds
      apply greatest top ((mem_mapped_frames entries top).mpr maps)
      intro frame member
      exact bounds frame ((mem_mapped_frames entries frame).mp member)
  · intro other others same
    exact (initialize_same pmm other same).symm
  · intro other others same
    apply (initialize_same pmm other _).symm
    intro frame
    simp only [MapsFrame, same]
  · intro apart frame maps reserved member unusable address inFrame
    exact reserved_outside apart maps member unusable inFrame

end CellPmm
