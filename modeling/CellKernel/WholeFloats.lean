import Mathlib

/-
Natural numbers in binary floating point. A number has many spellings as a
mantissa and an exponent, and rounding gives the same float for each of them.
So a sum of naturals that fit the mantissa is the float of their sum.
-/
namespace WholeFloats
open Float.Model (Format UnpackedFloat totalExponent)
open Float.Model.UnpackedFloat

variable {S : Format} {s : Sign} {m : Nat} {e : Int}

/-- A mantissa with nothing shifted out of it. -/
abbrev whole (m : Nat) : ExtendedMantissa := ⟨m, false, false⟩

theorem shift_add (em : ExtendedMantissa) (n k : Nat) : em >>> (n + k) = (em >>> n) >>> k := by
  induction k with
  | zero => rfl
  | succ k ih => exact congrArg ExtendedMantissa.shiftRightOne ih

theorem shift_scaled (m j : Nat) : whole (m * 2 ^ j) >>> j = whole m := by
  induction j generalizing m with
  | zero =>
    rw [Nat.pow_zero, Nat.mul_one]
    rfl
  | succ j ih =>
    have half : whole (m * 2 ^ (j + 1)) >>> (j + 1) =
        ExtendedMantissa.shiftRightOne (whole (m * 2 * 2 ^ j) >>> j) := by
      rw [Nat.pow_succ', ← Nat.mul_assoc]
      rfl
    rw [half, ih]
    simp [ExtendedMantissa.shiftRightOne]

theorem shift_both (m a b k : Nat) :
    whole (m * 2 ^ (a + k)) >>> (b + k) = whole (m * 2 ^ a) >>> b := by
  rw [Nat.add_comm b k, shift_add, Nat.pow_add, ← Nat.mul_assoc, shift_scaled]

/-- Shifting up by a and down by b depends on the difference only. -/
theorem shift_difference {a b c d : Nat} (m : Nat) (same : a + d = c + b) :
    whole (m * 2 ^ a) >>> b = whole (m * 2 ^ c) >>> d := by
  rcases Nat.le_total b d with below | above
  · obtain ⟨k, rfl⟩ := Nat.exists_eq_add_of_le below
    have up : c = a + k := by omega
    rw [up, shift_both]
  · obtain ⟨k, rfl⟩ := Nat.exists_eq_add_of_le above
    have up : a = c + k := by omega
    rw [up, shift_both]

theorem log_scaled (positive : 0 < m) (j : Nat) : (m * 2 ^ j).log2 = m.log2 + j := by
  induction j with
  | zero => rw [Nat.pow_zero, Nat.mul_one, Nat.add_zero]
  | succ j ih =>
    have nonzero : m * 2 ^ j ≠ 0 := (Nat.mul_pos positive (Nat.two_pow_pos j)).ne'
    calc (m * 2 ^ (j + 1)).log2 = (2 * (m * 2 ^ j)).log2 := by congr 1; ring
      _ = m.log2 + (j + 1) := by rw [Nat.log2_two_mul nonzero, ih, Nat.add_assoc]

theorem total_scaled (positive : 0 < m) (j : Nat) :
    totalExponent (m * 2 ^ j) (e - j) = totalExponent m e := by
  unfold totalExponent
  rw [log_scaled positive]
  omega

/-- The rest of rounding once the mantissa stands at its exponent t. -/
def settle (S : Format) (s : Sign) (em : ExtendedMantissa) (t : Int) : UnpackedFloat :=
  let last := shiftToTargetExponent S em.roundedMantissa t .exact
  if zero : last.1.mantissa = 0 then .zero s
  else .finite s last.1.mantissa last.2 (Nat.pos_of_ne_zero zero)

theorem accuracy_settles {t : Int} (target : S.targetExponent (totalExponent m e) = t) :
    roundWithAccuracy S s m e .exact =
      settle S s (whole m >>> (t - e).toNat) (e + (t - e).toNat) := by
  subst target
  rfl

theorem round_settles (positive : 0 < m) {t : Int}
    (target : S.targetExponent (totalExponent m e) = t) :
    round S s m e =
      settle S s (whole (m * 2 ^ (e - t).toNat) >>> (t - e).toNat) t := by
  have raised : round S s m e =
      roundWithAccuracy S s (m <<< (e - t).toNat) (e - (e - t).toNat) .exact := by
    subst target
    rfl
  have total : S.targetExponent
      (totalExponent (m * 2 ^ (e - t).toNat) (e - (e - t).toNat)) = t := by
    rw [total_scaled positive, target]
  have down : (t - (e - ((e - t).toNat : Int))).toNat = (t - e).toNat := by omega
  have there : e - ((e - t).toNat : Int) + ((t - e).toNat : Int) = t := by omega
  rw [raised, Nat.shiftLeft_eq, accuracy_settles total, down, there]

theorem round_scaled (positive : 0 < m) (j : Nat) :
    round S s (m * 2 ^ j) (e - j) = round S s m e := by
  have scaled : 0 < m * 2 ^ j := Nat.mul_pos positive (Nat.two_pow_pos j)
  rw [round_settles scaled (congrArg _ (total_scaled positive j)), round_settles positive rfl,
    Nat.mul_assoc, ← Nat.pow_add]
  congr 1
  apply shift_difference
  omega

def Spells (m : Nat) (e : Int) (n : Nat) : Prop :=
  ∃ i j : Nat, m * 2 ^ i = n * 2 ^ j ∧ e = i - j

theorem round_spelled {n : Nat} (positive : 0 < m) (spelled : Spells m e n) :
    round S s m e = round S s n 0 := by
  obtain ⟨i, j, same, rfl⟩ := spelled
  have nonzero : 0 < n := by
    apply Nat.pos_of_ne_zero
    intro zero
    have pow := Nat.two_pow_pos i
    rw [zero, Nat.zero_mul] at same
    exact absurd same (Nat.mul_pos positive pow).ne'
  have shift : ((i : Int) - j) - i = 0 - j := by ring
  rw [← round_scaled positive i, ← round_scaled nonzero j, same, shift]

theorem spells_unique {n k : Nat} (first : Spells m e n) (second : Spells m e k) : n = k := by
  obtain ⟨i, j, one, place⟩ := first
  obtain ⟨i', j', two, same⟩ := second
  have exponents : i' + j = i + j' := by omega
  have scaled : n * (2 ^ j * 2 ^ i') = k * (2 ^ j * 2 ^ i') := by
    calc n * (2 ^ j * 2 ^ i') = m * 2 ^ i * 2 ^ i' := by rw [one]; ring
      _ = m * 2 ^ i' * 2 ^ i := by ring
      _ = k * 2 ^ (j' + i) := by rw [two]; ring
      _ = k * (2 ^ j * 2 ^ i') := by rw [← Nat.pow_add]; congr 2; omega
  exact Nat.eq_of_mul_eq_mul_right (Nat.mul_pos (Nat.two_pow_pos j) (Nat.two_pow_pos i')) scaled

theorem spells_add {m' a b : Nat} {e' : Int} (first : Spells m e a) (second : Spells m' e' b) :
    Spells (m * 2 ^ (e - min e e').toNat + m' * 2 ^ (e' - min e e').toNat) (min e e')
      (a + b) := by
  obtain ⟨i, j, one, place⟩ := first
  obtain ⟨i', j', two, place'⟩ := second
  let up := (min e e' + (j + j')).toNat
  have raised : (up : Int) = min e e' + (j + j') := by omega
  refine ⟨up, j + j', ?_, by push_cast; omega⟩
  have left : (e - min e e').toNat + up = i + j' := by omega
  have right : (e' - min e e').toNat + up = i' + j := by omega
  calc (m * 2 ^ (e - min e e').toNat + m' * 2 ^ (e' - min e e').toNat) * 2 ^ up
      = m * 2 ^ ((e - min e e').toNat + up) + m' * 2 ^ ((e' - min e e').toNat + up) := by ring
    _ = m * 2 ^ i * 2 ^ j' + m' * 2 ^ i' * 2 ^ j := by rw [left, right]; ring
    _ = (a + b) * 2 ^ (j + j') := by rw [one, two]; ring

theorem settle_full {em : ExtendedMantissa} (rounded : em.roundedMantissa = m)
    (full : m.log2 + 1 = S.mantissaBits) (positive : 0 < m) {t : Int}
    (inside : S.minExponent ≤ t) : settle S s em t = .finite s m t positive := by
  have target : S.targetExponent (totalExponent m t) = t := by
    unfold Format.targetExponent totalExponent
    omega
  have nowhere : (t - t).toNat = 0 := by omega
  have stays : shiftToTargetExponent S m t .exact = (whole m, t) := by
    simp only [shiftToTargetExponent, shiftToExponent, target, nowhere]
    exact congrArg (Prod.mk (whole m)) (Int.add_zero t)
  unfold settle
  simp only [rounded, stays]
  rw [dif_neg (by omega)]

/-- Rounding up to the next power of two halves the mantissa once more. -/
theorem settle_carry {em : ExtendedMantissa}
    (rounded : em.roundedMantissa = 2 ^ S.mantissaBits) {t : Int} (inside : S.minExponent ≤ t) :
    settle S s em t =
      .finite s (2 ^ S.mantissaBitsWithoutImplicit) (t + 1) (Nat.two_pow_pos _) := by
  have target : S.targetExponent (totalExponent (2 ^ S.mantissaBits) t) = t + 1 := by
    unfold Format.targetExponent totalExponent
    rw [Nat.log2_two_pow]
    omega
  have once : (t + 1 - t).toNat = 1 := by omega
  have double : 2 ^ S.mantissaBits = 2 ^ S.mantissaBitsWithoutImplicit * 2 ^ 1 := by
    rw [← Nat.pow_add, Nat.add_comm]
    rfl
  have halves : shiftToTargetExponent S (2 ^ S.mantissaBits) t .exact =
      (whole (2 ^ S.mantissaBitsWithoutImplicit), t + 1) := by
    simp only [shiftToTargetExponent, shiftToExponent, target, once]
    rw [double]
    exact congrArg (fun em => (em, t + 1)) (shift_scaled _ 1)
  have positive : 0 < 2 ^ S.mantissaBitsWithoutImplicit := Nat.two_pow_pos _
  unfold settle
  simp only [rounded, halves]
  rw [dif_neg (by omega)]

/-- A float of full mantissa within the exponents of the format. -/
structure Normal (S : Format) (m : Nat) (e : Int) : Prop where
  full : m.log2 + 1 = S.mantissaBits
  low : S.minExponent ≤ e
  high : e ≤ (S.exponentBias : Int) - S.mantissaBitsWithoutImplicit

theorem min_exponent (S : Format) :
    S.minExponent = 1 - (S.exponentBias : Int) - S.mantissaBitsWithoutImplicit := by
  have positive : 1 ≤ 2 ^ (S.exponentBits - 1) := Nat.two_pow_pos _
  unfold Format.minExponent Format.exponentBias Format.mantissaBits
  push_cast [positive]
  omega

theorem of_nat_zero (S : Format) : ofNat S 0 = .zero .positive := rfl

theorem of_nat_round {n : Nat} (nonzero : 0 < n) : ofNat S n = round S .positive n 0 := by
  have above : compare (n : Int) 0 = .gt := Int.compare_eq_gt.mpr (by omega)
  unfold ofNat ofInt UnpackedFloat.normalize
  rw [above]
  rfl

theorem of_nat_exact (wide : S.mantissaBits ≤ S.exponentBias) {n : Nat} (nonzero : 0 < n)
    (fits : n ≤ 2 ^ S.mantissaBits) : ∃ m e, ∃ positive : 0 < m,
      ofNat S n = .finite .positive m e positive ∧ Normal S m e ∧ Spells m e n := by
  have least := min_exponent S
  have bits : S.mantissaBits = 1 + S.mantissaBitsWithoutImplicit := rfl
  rw [of_nat_round nonzero]
  rcases Nat.lt_or_eq_of_le fits with below | top
  · have log : n.log2 < S.mantissaBits := (Nat.log2_lt (by omega)).mpr below
    let a := S.mantissaBits - (n.log2 + 1)
    have target : S.targetExponent (totalExponent n 0) = -(a : Int) := by
      unfold Format.targetExponent totalExponent
      omega
    have positive : 0 < n * 2 ^ a := Nat.mul_pos nonzero (Nat.two_pow_pos a)
    have full : (n * 2 ^ a).log2 + 1 = S.mantissaBits := by
      rw [log_scaled nonzero]
      omega
    refine ⟨n * 2 ^ a, -(a : Int), positive, ?_, ⟨full, by omega, by omega⟩,
      0, a, by rw [Nat.pow_zero, Nat.mul_one], by omega⟩
    have up : ((0 : Int) - -(a : Int)).toNat = a := by omega
    have down : (-(a : Int) - 0).toNat = 0 := by omega
    have unshifted : (whole (n * 2 ^ a) >>> 0).roundedMantissa = n * 2 ^ a := rfl
    rw [round_settles nonzero target, up, down]
    exact settle_full unshifted full positive (by omega)
  · have target : S.targetExponent (totalExponent n 0) = 1 := by
      unfold Format.targetExponent totalExponent
      rw [top, Nat.log2_two_pow]
      omega
    have positive : 0 < 2 ^ S.mantissaBitsWithoutImplicit := Nat.two_pow_pos _
    have full : (2 ^ S.mantissaBitsWithoutImplicit).log2 + 1 = S.mantissaBits := by
      rw [Nat.log2_two_pow]
      omega
    have double : n = 2 ^ S.mantissaBitsWithoutImplicit * 2 ^ 1 := by
      rw [top, bits, Nat.pow_add, Nat.mul_comm]
    refine ⟨2 ^ S.mantissaBitsWithoutImplicit, 1, positive, ?_, ⟨full, by omega, by omega⟩,
      1, 0, by rw [double, Nat.pow_zero, Nat.mul_one], by omega⟩
    have up : ((0 : Int) - 1).toNat = 0 := by omega
    have down : ((1 : Int) - 0).toNat = 1 := by omega
    have unshifted : (whole (2 ^ S.mantissaBitsWithoutImplicit)).roundedMantissa =
        2 ^ S.mantissaBitsWithoutImplicit := rfl
    rw [round_settles nonzero target, up, down, Nat.pow_zero, Nat.mul_one, double, shift_scaled]
    exact settle_full unshifted full positive (by omega)

theorem exponent_capacity (S : Format) : 2 ^ S.exponentBits = 2 * S.exponentBias + 2 := by
  have some_bits := S.he
  have positive : 1 ≤ 2 ^ (S.exponentBits - 1) := Nat.two_pow_pos _
  have split : 2 ^ S.exponentBits = 2 ^ (S.exponentBits - 1) * 2 := by
    rw [← Nat.pow_succ]
    congr 1
    omega
  unfold Format.exponentBias
  omega

theorem mantissa_round_trip (full : m.log2 + 1 = S.mantissaBits) (positive : 0 < m) :
    (1#1 ++ BitVec.ofNat S.mantissaBitsWithoutImplicit m).toNat = m := by
  have bits : S.mantissaBits = 1 + S.mantissaBitsWithoutImplicit := rfl
  have log : m.log2 = S.mantissaBitsWithoutImplicit := by omega
  obtain ⟨above, below⟩ := (Nat.log2_eq_iff positive.ne').mp log
  have one : m / 2 ^ S.mantissaBitsWithoutImplicit = 1 := by
    apply Nat.div_eq_of_lt_le
    · omega
    · rw [Nat.pow_succ] at below
      omega
  have split := Nat.mod_add_div m (2 ^ S.mantissaBitsWithoutImplicit)
  rw [one, Nat.mul_one] at split
  rw [BitVec.toNat_append, ← Nat.shiftLeft_add_eq_or_of_lt (BitVec.isLt _), BitVec.toNat_ofNat]
  simp only [BitVec.toNat_ofNat, Nat.shiftLeft_eq]
  omega

theorem unpack_pack (normal : Normal S m e) (positive : 0 < m) :
    unpack S (pack S (.finite s m e positive)) = .finite s m e positive := by
  obtain ⟨full, low, high⟩ := normal
  have least := min_exponent S
  have capacity := exponent_capacity S
  let biased := (e + S.exponentBias + S.mantissaBitsWithoutImplicit).toNat
  have value : (biased : Int) = e + S.exponentBias + S.mantissaBitsWithoutImplicit :=
    Int.toNat_of_nonneg (by omega)
  have stored : (BitVec.ofNat S.exponentBits biased).toNat = biased := by
    rw [BitVec.toNat_ofNat, Nat.mod_eq_of_lt (by omega)]
  have not_small : BitVec.ofNat S.exponentBits biased ≠ 0#_ := by
    intro zero
    have none := congrArg BitVec.toNat zero
    rw [stored, BitVec.toNat_zero] at none
    omega
  have not_special : BitVec.ofNat S.exponentBits biased ≠ -1#_ := by
    intro ones
    have all := congrArg BitVec.toNat ones
    rw [stored, BitVec.neg_one_eq_allOnes, BitVec.toNat_allOnes] at all
    omega
  have packed : pack S (.finite s m e positive) = packComponents S s
      (BitVec.ofNat _ biased) (BitVec.ofNat _ m) := by
    have fits : ¬ 2 ^ S.exponentBits ≤ biased + 1 := by omega
    unfold pack
    exact (if_neg fits).trans (if_pos full)
  rw [packed]
  unfold unpack
  simp only [unpackMantissa_packComponents, unpackExponent_packComponents,
    unpackSign_packComponents, Sign.ofBitVec_toBitVec, not_small, not_special, if_false, stored,
    mantissa_round_trip full positive]
  congr 1
  omega

theorem of_nat_packs (wide : S.mantissaBits ≤ S.exponentBias) {n : Nat}
    (fits : n ≤ 2 ^ S.mantissaBits) : unpack S (pack S (ofNat S n)) = ofNat S n := by
  rcases Nat.eq_zero_or_pos n with rfl | nonzero
  · exact unpack_packedZero
  · obtain ⟨m, e, positive, same, normal, _⟩ := of_nat_exact wide nonzero fits
    rw [same]
    exact unpack_pack normal positive

theorem add_finite {m' : Nat} {e' : Int} (positive : 0 < m) (positive' : 0 < m') :
    add S (.finite .positive m e positive) (.finite .positive m' e' positive') =
      round S .positive (m * 2 ^ (e - min e e').toNat + m' * 2 ^ (e' - min e e').toNat)
        (min e e') := by
  have one : 0 < m * 2 ^ (e - min e e').toNat := Nat.mul_pos positive (Nat.two_pow_pos _)
  unfold add
  simp only [decreaseExponent, Nat.shiftLeft_eq, Sign.apply]
  rw [← Nat.cast_add]
  unfold UnpackedFloat.normalize
  rw [Int.compare_eq_gt.mpr (by omega)]
  rfl

theorem add_of_nat (wide : S.mantissaBits ≤ S.exponentBias) {a b : Nat}
    (left : a ≤ 2 ^ S.mantissaBits) (right : b ≤ 2 ^ S.mantissaBits) :
    add S (ofNat S a) (ofNat S b) = ofNat S (a + b) := by
  rcases Nat.eq_zero_or_pos a with rfl | some_a
  · rw [Nat.zero_add, of_nat_zero]
    rcases Nat.eq_zero_or_pos b with rfl | some_b
    · rfl
    · obtain ⟨m, e, positive, same, _⟩ := of_nat_exact wide some_b right
      rw [same]
      rfl
  · obtain ⟨m, e, positive, same, _, spelled⟩ := of_nat_exact wide some_a left
    rcases Nat.eq_zero_or_pos b with rfl | some_b
    · rw [Nat.add_zero, of_nat_zero, same]
      rfl
    · obtain ⟨m', e', positive', same', _, spelled'⟩ := of_nat_exact wide some_b right
      have sum : 0 < m * 2 ^ (e - min e e').toNat + m' * 2 ^ (e' - min e e').toNat :=
        Nat.add_pos_left (Nat.mul_pos positive (Nat.two_pow_pos _)) _
      rw [same, same', add_finite, round_spelled sum (spells_add spelled spelled'),
        of_nat_round (by omega)]

/-- One past the last exact natural is a tie, which goes to the even mantissa. -/
theorem of_nat_tie (wide : S.mantissaBits ≤ S.exponentBias) :
    ofNat S (2 ^ S.mantissaBits + 1) = ofNat S (2 ^ S.mantissaBits) := by
  have least := min_exponent S
  have bits : S.mantissaBits = 1 + S.mantissaBitsWithoutImplicit := rfl
  have stored := S.hm
  let half := 2 ^ S.mantissaBitsWithoutImplicit
  have positive : 0 < half := Nat.two_pow_pos _
  have double : 2 ^ S.mantissaBits = half * 2 ^ 1 := by
    rw [bits, Nat.pow_add, Nat.mul_comm]
  have even : half % 2 = 0 := by
    have twice : half = 2 ^ (S.mantissaBitsWithoutImplicit - 1) * 2 :=
      (Nat.two_pow_pred_mul_two stored).symm
    rw [twice, Nat.mul_mod_left]
  have log : (half * 2 ^ 1 + 1).log2 = S.mantissaBits := by
    apply (Nat.log2_eq_iff (by omega)).mpr
    rw [Nat.pow_succ, double]
    omega
  have full : half.log2 + 1 = S.mantissaBits := by
    rw [Nat.log2_two_pow]
    omega
  have target : S.targetExponent (totalExponent (half * 2 ^ 1 + 1) 0) = 1 := by
    unfold Format.targetExponent totalExponent
    omega
  have target' : S.targetExponent (totalExponent (half * 2 ^ 1) 0) = 1 := by
    unfold Format.targetExponent totalExponent
    rw [log_scaled positive]
    omega
  have tie : (whole (half * 2 ^ 1 + 1) >>> 1).roundedMantissa = half := by
    have shifted : whole (half * 2 ^ 1 + 1) >>> 1 = ⟨half, true, false⟩ := by
      have down : (half * 2 ^ 1 + 1) / 2 = half := by omega
      have odd : (half * 2 ^ 1 + 1) % 2 = 1 := by omega
      change (whole (half * 2 ^ 1 + 1)).shiftRightOne = _
      simp only [ExtendedMantissa.shiftRightOne, down, odd]
      rfl
    rw [shifted]
    change half + half % 2 = half
    omega
  have exact_half : (whole (half * 2 ^ 1) >>> 1).roundedMantissa = half := by
    rw [shift_scaled]
    rfl
  have up : ((0 : Int) - 1).toNat = 0 := by omega
  have down : ((1 : Int) - 0).toNat = 1 := by omega
  rw [double, of_nat_round (by omega), of_nat_round (by omega), round_settles (by omega) target,
    round_settles (by omega) target', up, down, Nat.pow_zero, Nat.mul_one, Nat.mul_one,
    settle_full tie full positive (by omega), settle_full exact_half full positive (by omega)]

theorem shift_mantissa (m n : Nat) : (whole m >>> n).mantissa = m / 2 ^ n := by
  induction n with
  | zero => exact (Nat.div_one m).symm
  | succ n ih =>
    have half : (whole m >>> (n + 1)).mantissa = (whole m >>> n).mantissa / 2 := rfl
    rw [half, ih, Nat.div_div_eq_div_mul, Nat.pow_succ]

theorem rounded_near (em : ExtendedMantissa) :
    em.roundedMantissa = em.mantissa ∨ em.roundedMantissa = em.mantissa + 1 := by
  obtain ⟨mantissa, half, rest⟩ := em
  have parity := Nat.mod_two_eq_zero_or_one mantissa
  cases half <;> cases rest <;>
    simp [ExtendedMantissa.roundedMantissa, ExtendedMantissa.accuracy,
      Accuracy.roundToNearestEven, parity]

/-- Past the tie, no natural rounds back to the last exact one. -/
theorem of_nat_past (wide : S.mantissaBits ≤ S.exponentBias) {n : Nat}
    (past : 2 ^ S.mantissaBits + 2 ≤ n) (bounded : n.log2 < S.exponentBias) :
    ∃ m e, ∃ positive : 0 < m, ofNat S n = .finite .positive m e positive ∧ Normal S m e ∧
      (2 ≤ e ∨ 2 ^ S.mantissaBitsWithoutImplicit < m) := by
  have least := min_exponent S
  have bits : S.mantissaBits = 1 + S.mantissaBitsWithoutImplicit := rfl
  let half := 2 ^ S.mantissaBitsWithoutImplicit
  have positive : 0 < half := Nat.two_pow_pos _
  have double : 2 ^ S.mantissaBits = half * 2 := by
    rw [bits, Nat.add_comm, Nat.pow_succ]
  have nonzero : n ≠ 0 := by omega
  have log : S.mantissaBits ≤ n.log2 := (Nat.le_log2 nonzero).mpr (by omega)
  obtain ⟨low, high⟩ := (Nat.log2_eq_iff nonzero).mp rfl
  let t := n.log2 - S.mantissaBitsWithoutImplicit
  have target : S.targetExponent (totalExponent n 0) = t := by
    unfold Format.targetExponent totalExponent
    omega
  have up : ((0 : Int) - (t : Int)).toNat = 0 := by omega
  have down : ((t : Int) - 0).toNat = t := by omega
  have floor_low : half ≤ n / 2 ^ t := by
    apply (Nat.le_div_iff_mul_le (Nat.two_pow_pos t)).mpr
    rw [← Nat.pow_add]
    exact (Nat.pow_le_pow_right (by decide) (by omega)).trans low
  have floor_high : n / 2 ^ t < 2 ^ S.mantissaBits := by
    apply (Nat.div_lt_iff_lt_mul (Nat.two_pow_pos t)).mpr
    rw [← Nat.pow_add]
    exact high.trans_le (Nat.pow_le_pow_right (by decide) (by omega))
  have floor_one : t = 1 → half < n / 2 ^ t := by
    intro one
    rw [one]
    omega
  let em := whole n >>> t
  have near : em.roundedMantissa = n / 2 ^ t ∨ em.roundedMantissa = n / 2 ^ t + 1 := by
    rw [← shift_mantissa]
    exact rounded_near em
  rw [of_nat_round (by omega), round_settles (by omega) target, up, down, Nat.pow_zero,
    Nat.mul_one]
  by_cases carry : em.roundedMantissa = 2 ^ S.mantissaBits
  · have full : half.log2 + 1 = S.mantissaBits := by
      rw [Nat.log2_two_pow]
      omega
    exact ⟨half, t + 1, positive, settle_carry carry (by omega), ⟨full, by omega, by omega⟩,
      Or.inl (by omega)⟩
  · have some_mantissa : 0 < em.roundedMantissa := by omega
    have full : em.roundedMantissa.log2 + 1 = S.mantissaBits := by
      have exactly : em.roundedMantissa.log2 = S.mantissaBitsWithoutImplicit := by
        apply (Nat.log2_eq_iff (by omega)).mpr
        rw [Nat.pow_succ]
        omega
      omega
    have inside : S.minExponent ≤ (t : Int) := by omega
    refine ⟨em.roundedMantissa, t, some_mantissa, settle_full rfl full some_mantissa inside,
      ⟨full, inside, by omega⟩, ?_⟩
    by_cases one : t = 1
    · have more := floor_one one
      exact Or.inr (by omega)
    · exact Or.inl (by omega)

theorem of_nat_past_packs (wide : S.mantissaBits ≤ S.exponentBias) {n : Nat}
    (past : 2 ^ S.mantissaBits + 2 ≤ n) (bounded : n.log2 < S.exponentBias) :
    unpack S (pack S (ofNat S n)) = ofNat S n := by
  obtain ⟨m, e, positive, same, normal, _⟩ := of_nat_past wide past bounded
  rw [same]
  exact unpack_pack normal positive

theorem beq_finite_iff {m' : Nat} {e' : Int} (positive : 0 < m) (positive' : 0 < m') :
    (UnpackedFloat.finite .positive m e positive).beq (.finite .positive m' e' positive') = true ↔
      e = e' ∧ m = m' := by
  simp [beq_iff_ne_notANumber_and_eq, and_comm]

theorem beq_of_nat_iff (wide : S.mantissaBits ≤ S.exponentBias) {a b : Nat}
    (left : a ≤ 2 ^ S.mantissaBits) (right : b ≤ 2 ^ S.mantissaBits) :
    (ofNat S a).beq (ofNat S b) = true ↔ a = b := by
  rcases Nat.eq_zero_or_pos a with rfl | some_a
  · rcases Nat.eq_zero_or_pos b with rfl | some_b
    · exact ⟨fun _ => rfl, fun _ => rfl⟩
    · obtain ⟨m, e, positive, same, _⟩ := of_nat_exact wide some_b right
      rw [same, of_nat_zero]
      constructor
      · intro equal
        cases equal
      · intro zero
        omega
  · obtain ⟨m, e, positive, same, _, spelled⟩ := of_nat_exact wide some_a left
    rcases Nat.eq_zero_or_pos b with rfl | some_b
    · rw [same, of_nat_zero]
      constructor
      · intro equal
        cases equal
      · intro zero
        omega
    · obtain ⟨m', e', positive', same', _, spelled'⟩ := of_nat_exact wide some_b right
      constructor
      · intro equal
        rw [same, same', beq_finite_iff] at equal
        obtain ⟨rfl, rfl⟩ := equal
        exact spells_unique spelled spelled'
      · rintro rfl
        rw [same, beq_finite_iff]
        exact ⟨rfl, rfl⟩

theorem beq_past (wide : S.mantissaBits ≤ S.exponentBias) {n : Nat}
    (past : 2 ^ S.mantissaBits + 2 ≤ n) (bounded : n.log2 < S.exponentBias) :
    ¬ (ofNat S (2 ^ S.mantissaBits)).beq (ofNat S n) = true := by
  obtain ⟨m, e, positive, same, _, apart⟩ := of_nat_past wide past bounded
  obtain ⟨m', e', positive', same', normal, i, j, spelled, place⟩ :=
    of_nat_exact wide (Nat.two_pow_pos _) (Nat.le_refl (2 ^ S.mantissaBits))
  rw [same, same', beq_finite_iff]
  rintro ⟨rfl, rfl⟩
  have bits : S.mantissaBits = 1 + S.mantissaBitsWithoutImplicit := rfl
  have log : m'.log2 = S.mantissaBitsWithoutImplicit := by
    have full := normal.full
    omega
  -- the last exact natural has the least full mantissa, at the exponent one
  have logs : S.mantissaBitsWithoutImplicit + i = S.mantissaBits + j := by
    have scaled := congrArg Nat.log2 spelled
    rw [log_scaled positive', log_scaled (Nat.two_pow_pos _), log, Nat.log2_two_pow] at scaled
    exact scaled
  have power : m' = 2 ^ S.mantissaBitsWithoutImplicit := by
    apply Nat.eq_of_mul_eq_mul_right (Nat.two_pow_pos i)
    rw [spelled, ← Nat.pow_add, ← Nat.pow_add, logs]
  omega

end WholeFloats
