import Mathlib.Algebra.BigOperators.Group.List.Basic

/-
Products clipped at a limit. A running product that is clipped after every
factor ends where the exact product does when it is clipped once, a zero after
the limit was reached included.
-/
namespace ClippedProduct

def clip (limit n : Nat) : Nat := min n limit

theorem clip_le (limit n : Nat) : clip limit n ≤ limit := Nat.min_le_right n limit

theorem clip_of_le {limit n : Nat} (fits : n ≤ limit) : clip limit n = n := Nat.min_eq_left fits

theorem clip_of_ge {limit n : Nat} (past : limit ≤ n) : clip limit n = limit :=
  Nat.min_eq_right past

@[simp] theorem clip_zero (limit : Nat) : clip limit 0 = 0 := Nat.zero_min limit

theorem clip_clip_mul (limit a b : Nat) : clip limit (clip limit a * b) = clip limit (a * b) := by
  rcases Nat.le_total a limit with fits | past
  · rw [clip_of_le fits]
  · rw [clip_of_ge past]
    rcases Nat.eq_zero_or_pos b with zero | positive
    · rw [zero, Nat.mul_zero, Nat.mul_zero]
    · -- Both sides are at the limit already: a factor of at least one keeps them there.
      have clipped : limit ≤ limit * b := Nat.le_mul_of_pos_right limit positive
      have exact' : limit ≤ a * b := Nat.le_trans clipped (Nat.mul_le_mul_right b past)
      rw [clip_of_ge clipped, clip_of_ge exact']

def clippedProduct (limit start : Nat) (factors : List Nat) : Nat :=
  factors.foldl (fun total factor => clip limit (total * factor)) start

theorem clipped_product_exact {limit start : Nat} (bounded : start ≤ limit)
    (factors : List Nat) :
    clippedProduct limit start factors = clip limit (start * factors.prod) := by
  induction factors generalizing start with
  | nil =>
    rw [List.prod_nil, Nat.mul_one, clip_of_le bounded]
    rfl
  | cons factor factors ih =>
    calc clippedProduct limit start (factor :: factors)
      _ = clippedProduct limit (clip limit (start * factor)) factors := rfl
      _ = clip limit (clip limit (start * factor) * factors.prod) := ih (clip_le _ _)
      _ = clip limit (start * factor * factors.prod) := clip_clip_mul _ _ _
      _ = clip limit (start * (factor :: factors).prod) := by
        rw [List.prod_cons, Nat.mul_assoc]

end ClippedProduct
