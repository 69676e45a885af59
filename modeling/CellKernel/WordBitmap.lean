import Mathlib.Data.Finset.Card
import Mathlib.Data.Finset.Range

/-
Bitmaps stored as a vector of words. Bit i is bit i mod w of word i / w; bits
past the last word read as clear. Masks are the shifts 1 <<< (i mod w).
-/
namespace CellBitmap
variable {w n : Nat}

def bit (m : Vector (BitVec w) n) (i : Nat) : Bool := (m[i / w]?.getD 0).getLsbD (i % w)

def word (m : Vector (BitVec w) n) (k : Nat) : BitVec w := m[k]?.getD 0

def raise (m : Vector (BitVec w) n) (i : Nat) : Vector (BitVec w) n :=
  m.setIfInBounds (i / w) (word m (i / w) ||| 1#w <<< (i % w))

def clear (m : Vector (BitVec w) n) (i : Nat) : Vector (BitVec w) n :=
  m.setIfInBounds (i / w) (word m (i / w) &&& ~~~(1#w <<< (i % w)))

/-- The numbers of the set bits. -/
def members (m : Vector (BitVec w) n) : Finset Nat :=
  (Finset.range (n * w)).filter fun i => bit m i = true

theorem word_index_lt {i : Nat} (inside : i < n * w) : i / w < n := by
  apply Nat.div_lt_of_lt_mul
  rwa [Nat.mul_comm]

theorem word_width_pos {i : Nat} (inside : i < n * w) : 0 < w := by
  apply Nat.pos_of_ne_zero
  intro zero
  simp [zero] at inside

theorem mask_bit {i j : Nat} (inside : j < w) :
    (1#w <<< i).getLsbD j = decide (j = i) := by
  rw [← BitVec.twoPow_eq, BitVec.getLsbD_twoPow]
  by_cases same : j = i
  · subst i
    simp [inside]
  · simp [same, Ne.symm same]

theorem same_bit {i j : Nat} (sameWord : i / w = j / w) : j % w = i % w ↔ j = i := by
  constructor
  · intro sameOffset
    rw [← Nat.div_add_mod j w, ← Nat.div_add_mod i w, sameWord, sameOffset]
  · intro same
    rw [same]

theorem bit_eq_word (m : Vector (BitVec w) n) (i : Nat) :
    bit m i = (word m (i / w)).getLsbD (i % w) := rfl

theorem word_set (m : Vector (BitVec w) n) {k j : Nat} (inside : k < n) (value : BitVec w) :
    word (m.setIfInBounds k value) j = if k = j then value else word m j := by
  unfold word
  rw [Vector.getElem?_setIfInBounds]
  split
  · rfl
  · rfl

theorem bit_set (m : Vector (BitVec w) n) {k : Nat} (inside : k < n) (value : BitVec w)
    (j : Nat) : bit (m.setIfInBounds k value) j =
      if k = j / w then value.getLsbD (j % w) else bit m j := by
  rw [bit_eq_word, word_set m inside]
  split <;> rfl

theorem bit_raise (m : Vector (BitVec w) n) {i : Nat} (inside : i < n * w) (j : Nat) :
    bit (raise m i) j = (bit m j || decide (j = i)) := by
  have offset := Nat.mod_lt j (word_width_pos inside)
  unfold raise
  rw [bit_set m (word_index_lt inside)]
  by_cases sameWord : i / w = j / w
  · rw [if_pos sameWord, BitVec.getLsbD_or, mask_bit offset, sameWord, ← bit_eq_word]
    simp only [same_bit sameWord]
  · rw [if_neg sameWord]
    have distinct : j ≠ i := fun same => sameWord (by rw [same])
    simp [distinct]

theorem bit_clear (m : Vector (BitVec w) n) {i : Nat} (inside : i < n * w) (j : Nat) :
    bit (clear m i) j = (bit m j && decide (j ≠ i)) := by
  have offset := Nat.mod_lt j (word_width_pos inside)
  unfold clear
  rw [bit_set m (word_index_lt inside)]
  by_cases sameWord : i / w = j / w
  · rw [if_pos sameWord, BitVec.getLsbD_and, BitVec.getLsbD_not, mask_bit offset, sameWord,
      ← bit_eq_word]
    simp [offset, same_bit sameWord]
  · rw [if_neg sameWord]
    have distinct : j ≠ i := fun same => sameWord (by rw [same])
    simp [distinct]

theorem bit_outside (m : Vector (BitVec w) n) {i : Nat} (past : n * w ≤ i) : bit m i = false := by
  by_cases positive : 0 < w
  · have index : n ≤ i / w := (Nat.le_div_iff_mul_le positive).mpr past
    have missing : m[i / w]? = none := by simp [index]
    simp [bit, missing]
  · have zero : w = 0 := by omega
    subst w
    exact BitVec.getLsbD_of_ge _ _ (Nat.zero_le _)

theorem bit_zeros (i : Nat) : bit (Vector.replicate n (0#w)) i = false := by
  unfold bit
  rw [Vector.getElem?_replicate]
  split <;> simp

theorem bit_ones {i : Nat} (inside : i < n * w) :
    bit (Vector.replicate n (BitVec.allOnes w)) i = true := by
  have offset := Nat.mod_lt i (word_width_pos inside)
  simp [bit, word_index_lt inside, offset]

theorem masked_nonzero_iff (m : Vector (BitVec w) n) {i : Nat} (positive : 0 < w) :
    word m (i / w) &&& 1#w <<< (i % w) ≠ 0 ↔ bit m i = true := by
  have offset := Nat.mod_lt i positive
  have nonzero : BitVec.twoPow w (i % w) ≠ 0#w := by
    intro zero
    have selected := congrArg (fun bits => bits.getLsbD (i % w)) zero
    simp [offset] at selected
  rw [bit_eq_word, ← BitVec.twoPow_eq, BitVec.and_twoPow]
  cases (word m (i / w)).getLsbD (i % w) <;> simp [nonzero]

theorem bitmap_ext {a b : Vector (BitVec w) n} (same : ∀ i, i < n * w → bit a i = bit b i) :
    a = b := by
  apply Vector.ext
  intro k inside
  apply BitVec.eq_of_getLsbD_eq
  intro j below
  have bound : k * w + j < n * w := by
    calc k * w + j < k * w + w := by omega
      _ = (k + 1) * w := by rw [Nat.add_mul, Nat.one_mul]
      _ ≤ n * w := Nat.mul_le_mul_right w inside
  have atBit := same (k * w + j) bound
  have index : (k * w + j) / w = k := by
    rw [Nat.mul_comm, Nat.mul_add_div (by omega), Nat.div_eq_of_lt below, Nat.add_zero]
  have offset : (k * w + j) % w = j := by
    rw [Nat.mul_comm, Nat.mul_add_mod, Nat.mod_eq_of_lt below]
  simpa [bit, index, offset, inside] using atBit

theorem mem_members (m : Vector (BitVec w) n) (i : Nat) : i ∈ members m ↔ bit m i = true := by
  simp only [members, Finset.mem_filter, Finset.mem_range, and_iff_right_iff_imp]
  intro set
  by_contra past
  rw [bit_outside m (by omega)] at set
  simp at set

end CellBitmap
