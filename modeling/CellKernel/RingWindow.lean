import Mathlib.Tactic.Push

/-
Ring storage addressed by counters that wrap at M. Item number c lives in slot
c mod M mod cap. When cap does not divide M, two numbers less than cap apart
can share a slot, but only across a multiple of M; the arithmetic below says
exactly which pairs do.
-/
namespace CellRing

def slot (M cap c : Nat) : Nat := c % M % cap

/-- Number first + count reuses the slot of one of the count live numbers
    starting at first. -/
def Clashes (M cap first count : Nat) : Prop :=
  M ≤ first + count ∧ (first + count) % M < M % cap ∧ M % cap ≤ count

instance (M cap first count : Nat) : Decidable (Clashes M cap first count) :=
  inferInstanceAs (Decidable (_ ∧ _))

theorem slot_lt (M c : Nat) {cap : Nat} (positive : 0 < cap) : slot M cap c < cap :=
  Nat.mod_lt _ positive

theorem near_residues {M a d : Nat} (short : d < M) :
    ((a + d) % M = a % M + d ∧ a % M + d < M) ∨
      ((a + d) % M + M = a % M + d ∧ M ≤ a + d) := by
  have positive : 0 < M := by omega
  have residue := Nat.mod_lt a positive
  have split := Nat.div_add_mod a M
  by_cases inside : a % M + d < M
  · left
    refine ⟨?_, inside⟩
    calc (a + d) % M = (M * (a / M) + (a % M + d)) % M := by rw [← Nat.add_assoc, split]
      _ = (a % M + d) % M := Nat.mul_add_mod ..
      _ = a % M + d := Nat.mod_eq_of_lt inside
  · right
    have wrapped : (a + d) % M = a % M + d - M := by
      calc (a + d) % M = (M * (a / M) + (a % M + d)) % M := by rw [← Nat.add_assoc, split]
        _ = (a % M + d) % M := Nat.mul_add_mod ..
        _ = (a % M + d - M) % M := Nat.mod_eq_sub_mod (by omega)
        _ = a % M + d - M := Nat.mod_eq_of_lt (by omega)
    have upto := Nat.mod_le a M
    omega

theorem residue_shift_ne {cap a d : Nat} (positive : 0 < d) (short : d < cap) :
    a % cap ≠ (a + d) % cap := by
  rcases near_residues (a := a) short with ⟨same, _⟩ | ⟨same, _⟩ <;> omega

/-- The exact slot collisions between numbers less than cap apart. -/
theorem slot_eq_iff {M cap a d : Nat} (fits : cap < M) (positive : 0 < d) (short : d < cap) :
    slot M cap a = slot M cap (a + d) ↔ M ≤ a + d ∧ (a + d) % M < M % cap ∧ M % cap = d := by
  unfold slot
  have capPositive : 0 < cap := by omega
  rcases near_residues (a := a) (show d < M by omega) with ⟨same, inside⟩ | ⟨same, past⟩
  · rw [same]
    have apart := residue_shift_ne (a := a % M) positive short
    constructor
    · intro shared
      exact absurd shared apart
    · rintro ⟨_, low, gap⟩
      omega
  · have residue := Nat.mod_lt a (show 0 < M by omega)
    rw [Nat.mod_eq_of_lt (show (a + d) % M < cap by omega)]
    have split := Nat.div_add_mod (a % M) cap
    constructor
    · intro shared
      have total : M = cap * (a % M / cap) + d := by omega
      have gap : M % cap = d := by
        rw [total, Nat.mul_add_mod, Nat.mod_eq_of_lt short]
      omega
    · rintro ⟨_, low, gap⟩
      have whole := Nat.div_add_mod M cap
      have start : a % M = cap * (M / cap) + (a + d) % M := by omega
      rw [start, Nat.mul_add_mod]
      exact Nat.mod_eq_of_lt (by omega)

theorem clashes_iff {M cap first count : Nat} (fits : cap < M) (room : count < cap) :
    Clashes M cap first count ↔
      ∃ k, k < count ∧ slot M cap (first + k) = slot M cap (first + count) := by
  constructor
  · rintro ⟨past, low, enough⟩
    refine ⟨count - M % cap, by omega, ?_⟩
    have meets := (slot_eq_iff (a := first + (count - M % cap)) (d := M % cap) fits
      (by omega) (by omega)).mpr
    have there : first + (count - M % cap) + M % cap = first + count := by omega
    rw [there] at meets
    exact meets ⟨past, low, rfl⟩
  · rintro ⟨k, before, shared⟩
    have there : first + k + (count - k) = first + count := by omega
    have meets := (slot_eq_iff (a := first + k) (d := count - k) fits (by omega) (by omega)).mp
    rw [there] at meets
    obtain ⟨past, low, gap⟩ := meets shared
    exact ⟨past, low, by omega⟩

theorem no_clash_of_dvd {M cap : Nat} (divides : cap ∣ M) (first count : Nat) :
    ¬ Clashes M cap first count := by
  rintro ⟨_, low, _⟩
  rw [Nat.mod_eq_zero_of_dvd divides] at low
  omega

theorem no_clash_below {M cap first count : Nat} (below : first + count < M) :
    ¬ Clashes M cap first count := by
  rintro ⟨past, _, _⟩
  omega

def Apart (M cap first count : Nat) : Prop :=
  ∀ j k, j < k → k < count → slot M cap (first + j) ≠ slot M cap (first + k)

theorem apart_extend {M cap first count : Nat} (fits : cap < M) (room : count < cap)
    (apart : Apart M cap first count) (clear : ¬ Clashes M cap first count) :
    Apart M cap first (count + 1) := by
  intro j k before inside shared
  by_cases last : k = count
  · subst k
    exact clear ((clashes_iff fits room).mpr ⟨j, before, shared⟩)
  · exact apart j k before (by omega) shared

theorem apart_shift {M cap first count : Nat} (apart : Apart M cap first (count + 1)) :
    Apart M cap (first + 1) count := by
  intro j k before inside shared
  have ahead := apart (j + 1) (k + 1) (by omega) (by omega)
  rw [show first + (j + 1) = first + 1 + j by omega,
    show first + (k + 1) = first + 1 + k by omega] at ahead
  exact ahead shared

variable {Item : Type} {cap : Nat}

/-- The slots hold exactly the items numbered from first, each in its own slot;
    every other slot is blank. -/
structure Holds (M : Nat) (slots : Vector (Option Item) cap) (first : Nat)
    (items : List Item) : Prop where
  apart : Apart M cap first items.length
  stored : ∀ k (inside : k < items.length),
    slots[slot M cap (first + k)]? = some (some items[k])
  blank : ∀ i, i < cap → (∀ k, k < items.length → slot M cap (first + k) ≠ i) →
    slots[i]? = some none

theorem holds_blank (M first : Nat) :
    Holds M (Vector.replicate cap (none : Option Item)) first [] := by
  refine ⟨?_, ?_, ?_⟩
  · intro j k before inside
    simp at inside
  · intro k inside
    simp at inside
  · intro i inside _
    simp [inside]

theorem holds_next_blank {M first : Nat} {slots : Vector (Option Item) cap} {items : List Item}
    (fits : cap < M) (holds : Holds M slots first items) (room : items.length < cap)
    (clear : ¬ Clashes M cap first items.length) :
    slots[slot M cap (first + items.length)]? = some none := by
  apply holds.blank _ (slot_lt M _ (by omega))
  intro k inside shared
  exact clear ((clashes_iff fits room).mpr ⟨k, inside, shared⟩)

theorem clash_occupied {M first : Nat} {slots : Vector (Option Item) cap} {items : List Item}
    (fits : cap < M) (holds : Holds M slots first items) (room : items.length < cap)
    (clash : Clashes M cap first items.length) :
    ∃ item ∈ items, slots[slot M cap (first + items.length)]? = some (some item) := by
  obtain ⟨k, inside, shared⟩ := (clashes_iff fits room).mp clash
  exact ⟨items[k], List.getElem_mem inside, shared ▸ holds.stored k inside⟩

theorem holds_store {M first : Nat} {slots : Vector (Option Item) cap} {items : List Item}
    (fits : cap < M) (holds : Holds M slots first items) (room : items.length < cap)
    (clear : ¬ Clashes M cap first items.length) (item : Item) :
    Holds M (slots.setIfInBounds (slot M cap (first + items.length)) (some item)) first
      (items ++ [item]) := by
  have apart := apart_extend fits room holds.apart clear
  have index := slot_lt M (first + items.length) (show 0 < cap by omega)
  refine ⟨by simpa using apart, ?_, ?_⟩
  · intro k inside
    have upto : k < items.length + 1 := by simpa using inside
    by_cases last : k = items.length
    · subst k
      simp [index]
    · have old : k < items.length := by omega
      rw [Vector.getElem?_setIfInBounds_ne (apart k items.length old (by omega)).symm,
        holds.stored k old, List.getElem_append_left old]
  · intro i inside free
    have other : slot M cap (first + items.length) ≠ i := free items.length (by simp)
    rw [Vector.getElem?_setIfInBounds_ne other]
    exact holds.blank i inside fun k old => free k (by simp; omega)

theorem holds_oldest {M first : Nat} {slots : Vector (Option Item) cap} {item : Item}
    {rest : List Item} (holds : Holds M slots first (item :: rest)) :
    slots[slot M cap first]? = some (some item) := by
  exact holds.stored 0 (by simp)

theorem holds_take {M first : Nat} {slots : Vector (Option Item) cap} {item : Item}
    {rest : List Item} (holds : Holds M slots first (item :: rest)) :
    Holds M (slots.setIfInBounds (slot M cap first) none) (first + 1) rest := by
  have apart := holds.apart
  rw [List.length_cons] at apart
  refine ⟨apart_shift apart, ?_, ?_⟩
  · intro k inside
    have other : slot M cap first ≠ slot M cap (first + (k + 1)) := by
      simpa using apart 0 (k + 1) (by omega) (by omega)
    have kept := holds.stored (k + 1) (by simpa using inside)
    rw [show first + 1 + k = first + (k + 1) by omega,
      Vector.getElem?_setIfInBounds_ne other, kept, List.getElem_cons_succ]
  · intro i inside free
    by_cases emptied : slot M cap first = i
    · subst i
      simp [inside]
    · rw [Vector.getElem?_setIfInBounds_ne emptied]
      apply holds.blank i inside
      intro k bound
      cases k with
      | zero => simpa using emptied
      | succ k =>
        have later := free k (by simpa using bound)
        rwa [show first + 1 + k = first + (k + 1) by omega] at later

end CellRing
