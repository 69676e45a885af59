import Mathlib.Data.List.Basic

/-
Bounded first-in first-out queues. The capacity bound is a field, so an
overfull queue cannot be built. Failed operations return no queue at all:
the caller keeps the one it had.
-/
namespace CellFifo

structure Fifo (Item : Type) (cap : Nat) where
  items : List Item
  bounded : items.length ≤ cap

variable {Item : Type} {cap : Nat}

theorem fifo_ext {q r : Fifo Item cap} (same : q.items = r.items) : q = r := by
  cases q; cases r
  simp_all

def Fifo.empty : Fifo Item cap := ⟨[], Nat.zero_le cap⟩

def Fifo.push (q : Fifo Item cap) (item : Item) : Option (Fifo Item cap) :=
  if room : q.items.length < cap then
    some ⟨q.items ++ [item], by simp only [List.length_append, List.length_singleton]; omega⟩
  else none

def Fifo.pop (q : Fifo Item cap) : Option (Item × Fifo Item cap) :=
  match shape : q.items with
  | [] => none
  | item :: rest => some (item, ⟨rest, by
      have fits := q.bounded
      rw [shape, List.length_cons] at fits
      omega⟩)

@[simp] theorem empty_items : (Fifo.empty : Fifo Item cap).items = [] := rfl

theorem push_some_iff (q r : Fifo Item cap) (item : Item) :
    q.push item = some r ↔ q.items.length < cap ∧ r.items = q.items ++ [item] := by
  unfold Fifo.push
  split
  · rename_i room
    simp only [Option.some.injEq, room, true_and]
    exact ⟨fun same => same ▸ rfl, fun same => fifo_ext same.symm⟩
  · rename_i full
    simp [full]

theorem push_none_iff (q : Fifo Item cap) (item : Item) :
    q.push item = none ↔ q.items.length = cap := by
  have fits := q.bounded
  unfold Fifo.push
  split <;> simp <;> omega

theorem pop_some_iff (q r : Fifo Item cap) (item : Item) :
    q.pop = some (item, r) ↔ q.items = item :: r.items := by
  unfold Fifo.pop
  split
  · rename_i shape
    simp [shape]
  · rename_i head rest shape
    simp only [Option.some.injEq, Prod.mk.injEq, shape, List.cons.injEq]
    constructor
    · rintro ⟨rfl, rfl⟩
      exact ⟨rfl, rfl⟩
    · rintro ⟨rfl, same⟩
      exact ⟨rfl, fifo_ext same⟩

theorem pop_none_iff (q : Fifo Item cap) : q.pop = none ↔ q.items = [] := by
  unfold Fifo.pop
  split <;> simp_all

theorem push_succeeds (q : Fifo Item cap) (item : Item) (room : q.items.length < cap) :
    ∃ r, q.push item = some r ∧ r.items = q.items ++ [item] := by
  have fits : (q.items ++ [item]).length ≤ cap := by simp; omega
  exact ⟨⟨q.items ++ [item], fits⟩, (push_some_iff q _ item).mpr ⟨room, rfl⟩, rfl⟩

theorem pop_succeeds (q : Fifo Item cap) (nonempty : q.items ≠ []) :
    ∃ item r, q.pop = some (item, r) ∧ q.items = item :: r.items := by
  cases run : q.pop with
  | none => exact absurd ((pop_none_iff q).mp run) nonempty
  | some pair =>
    obtain ⟨item, r⟩ := pair
    exact ⟨item, r, rfl, (pop_some_iff q r item).mp run⟩

end CellFifo
