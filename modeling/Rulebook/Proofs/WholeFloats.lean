import Mathlib
import Rulebook.Decimal.Rounding

namespace Rulebook.Decimal

open Float.Model (UnpackedFloat Format totalExponent)
open Float.Model.UnpackedFloat

/-- The distance between neighbouring floating-point numbers from a whole number on, at least
one. -/
def spacing (n : Nat) : Nat := 2 ^ (n.log2 - 52)

/-- The floating-point number nearest to a whole one, which is itself whole. -/
def nearestNat (n : Nat) : Nat := roundDiv n (spacing n) * spacing n

def nearestInt (n : Int) : Int := n.sign * nearestNat n.natAbs

theorem roundDiv_mul (n d : Nat) {c : Nat} (hc : 0 < c) :
    roundDiv (n * c) (d * c) = roundDiv n d := by
  have hlt (a b : Nat) : a * c < b * c ↔ a < b := Nat.mul_lt_mul_right hc
  simp only [roundDiv, Nat.mul_div_mul_right _ _ hc, Nat.mul_mod_mul_right, ← Nat.mul_assoc, hlt]

theorem roundDiv_one (n : Nat) : roundDiv n 1 = n := by
  simp [roundDiv, Nat.mod_one]

theorem le_roundDiv (n d : Nat) : n / d ≤ roundDiv n d := by
  unfold roundDiv
  dsimp only
  split_ifs <;> omega

theorem roundDiv_le (n d : Nat) : roundDiv n d ≤ n / d + 1 := by
  unfold roundDiv
  dsimp only
  split_ifs <;> omega

/-- The bits that a shift drops, as far as rounding has to know them. -/
theorem shift_exact (m k : Nat) :
    ((⟨m, false, false⟩ : ExtendedMantissa) >>> k).mantissa = m / 2 ^ k ∧
      (((⟨m, false, false⟩ : ExtendedMantissa) >>> k).roundBit = true ↔
        2 ^ k ≤ 2 * (m % 2 ^ k)) ∧
      (((⟨m, false, false⟩ : ExtendedMantissa) >>> k).stickyBit = true ↔
        m % 2 ^ k ≠ 0 ∧ 2 * (m % 2 ^ k) ≠ 2 ^ k) := by
  induction k with
  | zero =>
    show m = _ ∧ (false = true ↔ _) ∧ (false = true ↔ _)
    simp [Nat.mod_one]
  | succ k ih =>
    obtain ⟨hm, hr, hs⟩ := ih
    have hstep : (⟨m, false, false⟩ : ExtendedMantissa) >>> (k + 1) =
        ((⟨m, false, false⟩ : ExtendedMantissa) >>> k).shiftRightOne := rfl
    rw [hstep]
    generalize (⟨m, false, false⟩ : ExtendedMantissa) >>> k = em at hm hr hs
    have hlt := Nat.mod_lt m (Nat.two_pow_pos k)
    have hmod := Nat.mod_pow_succ (x := m) (b := 2) (k := k)
    refine ⟨?_, ?_, ?_⟩
    · show em.mantissa / 2 = _
      rw [hm, Nat.div_div_eq_div_mul, Nat.pow_succ]
    · show (em.mantissa % 2 != 0) = true ↔ _
      rw [hmod, hm, Nat.pow_succ, bne_iff_ne]
      rcases Nat.mod_two_eq_zero_or_one (m / 2 ^ k) with h | h <;> rw [h] <;> omega
    · show (em.roundBit || em.stickyBit) = true ↔ _
      rw [Bool.or_eq_true, hr, hs, hmod, Nat.pow_succ]
      rcases Nat.mod_two_eq_zero_or_one (m / 2 ^ k) with h | h <;> rw [h] <;> omega

theorem roundedMantissa_shift (m k : Nat) :
    ((⟨m, false, false⟩ : ExtendedMantissa) >>> k).roundedMantissa = roundDiv m (2 ^ k) := by
  obtain ⟨hm, hr, hs⟩ := shift_exact m k
  generalize (⟨m, false, false⟩ : ExtendedMantissa) >>> k = em at hm hr hs
  obtain ⟨q, r, s⟩ := em
  have hpos := Nat.two_pow_pos k
  simp only at hm hr hs
  subst hm
  unfold ExtendedMantissa.roundedMantissa roundDiv
  cases r <;> cases s <;>
    simp only [Bool.false_eq_true, false_iff, true_iff, ExtendedMantissa.accuracy,
      Accuracy.roundToNearestEven] at * <;>
    split_ifs <;> omega

variable {m k : Nat} {e : Int}

theorem shiftToTargetExponent_exact (hk : m.log2 = 52 + k) (he : -1074 ≤ e + k) :
    shiftToTargetExponent .binary64 m e .exact =
      ((⟨m, false, false⟩ : ExtendedMantissa) >>> k, e + k) := by
  have htarget : Format.binary64.targetExponent (totalExponent m e) = e + k := by
    simp only [Format.targetExponent, totalExponent, Format.mantissaBits, Format.minExponent]
    omega
  have hshift : (e + k - e).toNat = k := by omega
  rw [shiftToTargetExponent, htarget, shiftToExponent, hshift]
  rfl

theorem log2_eq {n a : Nat} (hlow : 2 ^ a ≤ n) (hhigh : n < 2 ^ (a + 1)) : n.log2 = a :=
  (Nat.log2_eq_iff (by have := Nat.two_pow_pos a; omega)).2 ⟨hlow, hhigh⟩

theorem log2_mul_two_pow {n : Nat} (hn : 0 < n) (a : Nat) : (n * 2 ^ a).log2 = n.log2 + a := by
  apply log2_eq
  · rw [Nat.pow_add]
    exact Nat.mul_le_mul_right _ (Nat.log2_self_le hn.ne')
  · rw [Nat.add_right_comm, Nat.pow_add]
    exact Nat.mul_lt_mul_of_pos_right Nat.lt_log2_self (Nat.two_pow_pos a)

/-- A significand of at least 53 bits is rounded to 53 bits. If that makes it one bit longer, it is
shifted once more. -/
theorem roundWithAccuracy_exact (s : Sign) (hk : m.log2 = 52 + k) (he : -1074 ≤ e + k) :
    ∃ (M j : Nat) (h : 0 < M), roundWithAccuracy .binary64 s m e .exact = .finite s M (e + j) h ∧
      2 ^ 52 ≤ M ∧ M < 2 ^ 53 ∧ k ≤ j ∧ M * 2 ^ j = roundDiv m (2 ^ k) * 2 ^ k := by
  have hpos := Nat.two_pow_pos k
  have hm : m ≠ 0 := by
    rintro rfl
    rw [Nat.log2_zero] at hk
    omega
  have hfloor : 2 ^ 52 ≤ m / 2 ^ k ∧ m / 2 ^ k < 2 ^ 53 := by
    obtain ⟨hlow, hhigh⟩ := (Nat.log2_eq_iff hm).1 hk
    rw [Nat.le_div_iff_mul_le hpos, Nat.div_lt_iff_lt_mul hpos, ← Nat.pow_add, ← Nat.pow_add]
    exact ⟨hlow, by rwa [Nat.add_right_comm] at hhigh⟩
  have hlow := le_roundDiv m (2 ^ k)
  have hhigh := roundDiv_le m (2 ^ k)
  obtain ⟨c, M, hr, hM⟩ : ∃ c M, roundDiv m (2 ^ k) = M * 2 ^ c ∧ 2 ^ 52 ≤ M ∧ M < 2 ^ 53 := by
    by_cases h : roundDiv m (2 ^ k) < 2 ^ 53
    · exact ⟨0, roundDiv m (2 ^ k), by simp, by omega, h⟩
    · exact ⟨1, 2 ^ 52, by omega, by omega, by omega⟩
  have hlog : (M * 2 ^ c).log2 = 52 + c := by
    rw [log2_mul_two_pow (by omega), log2_eq hM.1 hM.2]
  refine ⟨M, k + c, by omega, ?_, hM.1, hM.2, by omega, ?_⟩
  · rw [roundWithAccuracy, shiftToTargetExponent_exact hk he]
    have hfinal : (-1074 : Int) ≤ e + k + c := by omega
    simp only [roundedMantissa_shift, hr, shiftToTargetExponent_exact hlog hfinal,
      (shift_exact _ _).1, Nat.mul_div_cancel _ (Nat.two_pow_pos c)]
    rw [dif_neg (by omega)]
    simp only [Nat.cast_add, Int.add_assoc]
  · rw [hr, Nat.pow_add]
    ring

def IsWhole (s : Sign) (v : Nat) (f : UnpackedFloat) : Prop :=
  ∃ (M k : Nat) (h : 0 < M), f = .finite s M ((k : Int) - 52) h ∧ 2 ^ 52 ≤ M ∧ M < 2 ^ 53 ∧
    M * 2 ^ k = v * 2 ^ 52

variable {s : Sign} {v w : Nat} {f g : UnpackedFloat}

theorem IsWhole.pos (h : IsWhole s v f) : 0 < v := by
  obtain ⟨M, k, hpos, -, -, -, hv⟩ := h
  have := Nat.mul_pos hpos (Nat.two_pow_pos k)
  rw [hv] at this
  exact Nat.pos_of_mul_pos_right this

theorem IsWhole.neg (h : IsWhole s v f) : IsWhole (-s) v f.neg := by
  obtain ⟨M, k, hpos, rfl, hM⟩ := h
  exact ⟨M, k, hpos, rfl, hM⟩

/-- What is rounded to a whole number, where the unit of the last place is `2^(a - b - 52)`. -/
theorem isWhole_round {a b : Nat} (s : Sign) (hk : m.log2 = 52 + k) (hb : b ≤ k) (ha : a ≤ 1000)
    (he : e = a - b - 52) (hv : roundDiv m (2 ^ k) * 2 ^ k * 2 ^ a = v * 2 ^ 52 * 2 ^ b) :
    IsWhole s v (roundWithAccuracy .binary64 s m e .exact) := by
  obtain ⟨M, j, hpos, hround, hlow, hhigh, hj, hM⟩ :=
    roundWithAccuracy_exact (e := e) s hk (by omega)
  refine ⟨M, a + j - b, hpos, ?_, hlow, hhigh, ?_⟩
  · rw [hround]
    congr 1
    omega
  · apply Nat.eq_of_mul_eq_mul_right (Nat.two_pow_pos b)
    rw [← hv, ← hM, Nat.mul_assoc, ← Nat.pow_add, Nat.mul_assoc, ← Nat.pow_add]
    congr 2
    omega

theorem unpackSign_packComponents {spec : Format} (s : Sign) (e : BitVec spec.exponentBits)
    (m : BitVec spec.mantissaBitsWithoutImplicit) :
    Sign.ofBitVec (unpackSign (packComponents spec s e m)) = s := by
  have hbits : unpackSign (packComponents spec s e m) = s.toBitVec := by
    ext i hi
    obtain rfl : i = 0 := by omega
    simp [unpackSign, packComponents, BitVec.getLsbD_append, BitVec.getElem_append]
  rw [hbits]
  cases s <;> rfl

theorem exponent_le {M : Nat} (hlow : 2 ^ 52 ≤ M) (hM : M * 2 ^ k = v * 2 ^ 52)
    (hv : v ≤ 2 ^ 64) : k ≤ 64 := by
  have h : 2 ^ 52 * 2 ^ k ≤ 2 ^ 52 * 2 ^ 64 := calc
    2 ^ 52 * 2 ^ k ≤ M * 2 ^ k := Nat.mul_le_mul_right _ hlow
    _ = v * 2 ^ 52 := hM
    _ ≤ 2 ^ 52 * 2 ^ 64 := by omega
  exact (Nat.pow_le_pow_iff_right (by decide)).1 (Nat.le_of_mul_le_mul_left h (by decide))

theorem pack_normal {M : Nat} (s : Sign) (hpos : 0 < M) (hlow : 2 ^ 52 ≤ M) (hhigh : M < 2 ^ 53)
    (hk : k ≤ 64) : pack .binary64 (.finite s M ((k : Int) - 52) hpos) =
      packComponents .binary64 s (BitVec.ofNat 11 (k + 1023)) (BitVec.ofNat 52 M) := by
  have hbias : Format.binary64.exponentBias = 1023 := rfl
  have hbiased : ((k : Int) - 52 + (1023 : Nat) + (52 : Nat)).toNat = k + 1023 := by omega
  have hfits : ¬ 2 ^ 11 ≤ k + 1023 + 1 := by omega
  simp only [UnpackedFloat.pack, hbias, hbiased, hfits, if_false, log2_eq hlow hhigh]
  rfl

theorem unpack_normal {M : Nat} (s : Sign) (hpos : 0 < M) (hlow : 2 ^ 52 ≤ M) (hhigh : M < 2 ^ 53)
    (hk : k ≤ 64) : UnpackedFloat.unpack .binary64
        (packComponents .binary64 s (BitVec.ofNat 11 (k + 1023)) (BitVec.ofNat 52 M)) =
      .finite s M ((k : Int) - 52) hpos := by
  have hexp : (BitVec.ofNat 11 (k + 1023)).toNat = k + 1023 := by
    rw [BitVec.toNat_ofNat, Nat.mod_eq_of_lt (by omega)]
  -- The exponent is neither that of the numbers that are not finite nor that of the subnormal ones.
  have hother (x : BitVec 11) (hx : x.toNat ≠ k + 1023) : BitVec.ofNat 11 (k + 1023) ≠ x := by
    rintro rfl
    exact hx hexp
  have hones : BitVec.ofNat 11 (k + 1023) ≠ -1#11 := by
    apply hother
    rw [BitVec.neg_one_eq_allOnes, BitVec.toNat_allOnes]
    omega
  have hzero : BitVec.ofNat 11 (k + 1023) ≠ 0#11 := by
    apply hother
    rw [BitVec.toNat_zero]
    omega
  have hmant : (1#1 ++ BitVec.ofNat 52 M).toNat = M := by
    rw [BitVec.toNat_append, BitVec.toNat_ofNat, ← Nat.shiftLeft_add_eq_or_of_lt (by omega)]
    simp only [BitVec.toNat_ofNat, Nat.shiftLeft_eq]
    omega
  have hexponent : ((k + 1023 : Nat) : Int) - (Format.binary64.exponentBias + (52 : Nat)) =
      k - 52 := by
    have hbias : Format.binary64.exponentBias = 1023 := rfl
    omega
  unfold UnpackedFloat.unpack
  simp only [unpackMantissa_packComponents, unpackExponent_packComponents,
    unpackSign_packComponents, hones, hzero, if_false, hexp, hmant, hexponent]

/-- Nothing is lost in the bits of a whole number of 64 bits. -/
theorem unpack_pack (h : IsWhole s v f) (hv : v ≤ 2 ^ 64) : (Float.Model.pack f).unpack = f := by
  obtain ⟨M, k, hpos, rfl, hlow, hhigh, hM⟩ := h
  have hk := exponent_le hlow hM hv
  show UnpackedFloat.unpack .binary64 (pack .binary64 _) = _
  rw [pack_normal s hpos hlow hhigh hk, unpack_normal s hpos hlow hhigh hk]

theorem exponent_eq {M M' k' : Nat} (hlow : 2 ^ 52 ≤ M) (hhigh : M < 2 ^ 53) (hlow' : 2 ^ 52 ≤ M')
    (hhigh' : M' < 2 ^ 53) (h : M * 2 ^ k = M' * 2 ^ k') : k = k' ∧ M = M' := by
  have hlog := congrArg Nat.log2 h
  rw [log2_mul_two_pow (by omega), log2_mul_two_pow (by omega), log2_eq hlow hhigh,
    log2_eq hlow' hhigh'] at hlog
  have hk : k = k' := by omega
  subst hk
  exact ⟨rfl, Nat.eq_of_mul_eq_mul_right (Nat.two_pow_pos k) h⟩

theorem beq_whole_iff (hf : IsWhole s v f) (hg : IsWhole s w g) : f.beq g = true ↔ v = w := by
  obtain ⟨M, k, hpos, rfl, hlow, hhigh, hM⟩ := hf
  obtain ⟨M', k', hpos', rfl, hlow', hhigh', hM'⟩ := hg
  have hparts : UnpackedFloat.beq (.finite s M ((k : Int) - 52) hpos)
      (.finite s M' ((k' : Int) - 52) hpos') = true ↔ (k : Int) - 52 = k' - 52 ∧ M = M' := by
    cases s <;> simp [UnpackedFloat.beq, UnpackedFloat.compare, Ordering.then_eq_eq,
      Ordering.swap_eq_eq]
  rw [hparts]
  constructor
  · rintro ⟨hk, rfl⟩
    have hk : k = k' := by omega
    subst hk
    exact Nat.eq_of_mul_eq_mul_right (by decide) (hM.symm.trans hM')
  · rintro rfl
    obtain ⟨rfl, rfl⟩ := exponent_eq hlow hhigh hlow' hhigh' (hM.trans hM'.symm)
    exact ⟨rfl, rfl⟩

theorem beq_whole_ne (hf : IsWhole s v f) (hg : IsWhole (-s) w g) : f.beq g = false := by
  obtain ⟨M, k, hpos, rfl, -⟩ := hf
  obtain ⟨M', k', hpos', rfl, -⟩ := hg
  cases s <;> rfl

theorem beq_whole_zero (hf : IsWhole s v f) (t : Sign) :
    f.beq (.zero t) = false ∧ UnpackedFloat.beq (.zero t) f = false := by
  obtain ⟨M, k, hpos, rfl, -⟩ := hf
  cases s <;> exact ⟨rfl, rfl⟩

theorem spacing_of_lt {n : Nat} (hn : n < 2 ^ 53) : spacing n = 1 := by
  have hlog : n.log2 ≤ 52 := by
    by_cases h : n = 0
    · rw [h, Nat.log2_zero]
      omega
    · have := (Nat.log2_lt h).2 hn
      omega
  rw [spacing, Nat.sub_eq_zero_of_le hlog, Nat.pow_zero]

theorem nearestNat_of_lt {n : Nat} (hn : n < 2 ^ 53) : nearestNat n = n := by
  rw [nearestNat, spacing_of_lt hn, roundDiv_one, Nat.mul_one]

theorem two_pow_le_log2 {n : Nat} (hn : 2 ^ 53 ≤ n) : 53 ≤ n.log2 :=
  (Nat.le_log2 (by omega)).2 hn

theorem le_nearestNat {n : Nat} (hn : 2 ^ 53 ≤ n) : 2 ^ 53 ≤ nearestNat n := by
  have hlog := two_pow_le_log2 hn
  have hsplit : 2 ^ 52 * spacing n = 2 ^ n.log2 := by
    rw [spacing, ← Nat.pow_add, Nat.add_sub_cancel' (by omega)]
  have hfloor : 2 ^ 52 ≤ n / spacing n := by
    apply (Nat.le_div_iff_mul_le (Nat.two_pow_pos _)).2
    rw [← spacing, hsplit]
    exact Nat.log2_self_le (by omega)
  calc 2 ^ 53 ≤ 2 ^ n.log2 := Nat.pow_le_pow_right (by decide) hlog
    _ = 2 ^ 52 * spacing n := hsplit.symm
    _ ≤ nearestNat n := Nat.mul_le_mul_right _ (hfloor.trans (le_roundDiv n _))

theorem nearestNat_le {n : Nat} (hn : n < 2 ^ 64) : nearestNat n ≤ 2 ^ 64 := by
  by_cases hsmall : n < 2 ^ 53
  · rw [nearestNat_of_lt hsmall]
    exact hn.le
  · have hlog : n.log2 < 64 := (Nat.log2_lt (by omega)).2 hn
    have hlow := two_pow_le_log2 (Nat.le_of_not_lt hsmall)
    have hceil : n / spacing n < 2 ^ 53 := by
      apply (Nat.div_lt_iff_lt_mul (Nat.two_pow_pos _)).2
      rw [← Nat.pow_add, show 53 + (n.log2 - 52) = n.log2 + 1 by omega]
      exact Nat.lt_log2_self
    have hround := roundDiv_le n (spacing n)
    calc nearestNat n ≤ 2 ^ 53 * spacing n := Nat.mul_le_mul_right _ (by omega)
      _ ≤ 2 ^ 53 * 2 ^ 11 :=
        Nat.mul_le_mul_left _ (Nat.pow_le_pow_right (by decide) (by omega))
      _ = 2 ^ 64 := by norm_num

theorem isWhole_small {n : Nat} (hpos : 0 < n) (hn : n < 2 ^ 53) :
    IsWhole .positive n (UnpackedFloat.ofNat .binary64 n) := by
  have hlog : n.log2 < 53 := (Nat.log2_lt hpos.ne').2 hn
  have htarget : Format.binary64.targetExponent (totalExponent n 0) = n.log2 - 52 := by
    simp only [Format.targetExponent, totalExponent, Format.mantissaBits, Format.minExponent]
    omega
  have hshift : ((0 : Int) - (n.log2 - 52)).toNat = 52 - n.log2 := by omega
  have hround : UnpackedFloat.ofNat .binary64 n = roundWithAccuracy .binary64 .positive
      (n * 2 ^ (52 - n.log2)) (0 - (52 - n.log2 : Nat)) .exact := by
    have hcompare : compare (n : Int) 0 = .gt := Int.compare_eq_gt.2 (by omega)
    rw [UnpackedFloat.ofNat, UnpackedFloat.ofInt, UnpackedFloat.normalize, hcompare]
    show UnpackedFloat.round .binary64 .positive (n : Int).toNat 0 = _
    rw [UnpackedFloat.round, Int.toNat_natCast, htarget, decreaseExponent, hshift,
      Nat.shiftLeft_eq]
  rw [hround]
  apply isWhole_round (k := 0) (a := n.log2) (b := 0)
  · rw [log2_mul_two_pow hpos]
    omega
  · omega
  · omega
  · omega
  · simp only [Nat.pow_zero, roundDiv_one, Nat.mul_one]
    rw [Nat.mul_assoc, ← Nat.pow_add, Nat.sub_add_cancel (by omega)]

theorem isWhole_mul_one (h : IsWhole .positive v f) (hv : v ≤ 2 ^ 64) :
    IsWhole .positive v
      (UnpackedFloat.mul .binary64 f (.finite .positive (2 ^ 52) (-52) (by decide))) := by
  obtain ⟨M, k, hpos, rfl, hlow, hhigh, hM⟩ := h
  have hk := exponent_le hlow hM hv
  have hround : roundDiv (M * 2 ^ 52) (2 ^ 52) = M := by
    have h := roundDiv_mul M 1 (Nat.two_pow_pos 52)
    rwa [Nat.one_mul, roundDiv_one] at h
  show IsWhole _ _ (roundWithAccuracy .binary64 .positive (M * 2 ^ 52) _ .exact)
  apply isWhole_round (k := 52) (a := k) (b := 52)
  · rw [log2_mul_two_pow hpos, log2_eq hlow hhigh]
  · omega
  · omega
  · omega
  · rw [hround, Nat.mul_right_comm, hM]

theorem ofScientific_eq {n : Nat} (hn : 0 < n) : UnpackedFloat.ofScientific .binary64 n 0 =
    roundWithAccuracy .binary64 .positive (n * 2 ^ 53) (-53) .exact := by
  have hlow : ¬ (0 : Int) < -((2 ^ 11 : Int) + n.log2) := by omega
  unfold UnpackedFloat.ofScientific
  rw [dif_neg (by omega), if_neg (by decide), if_neg hlow, if_pos (by decide)]
  show roundWithAccuracy .binary64 .positive (n <<< 53 * 1) (-53) .exact = _
  rw [Nat.mul_one, Nat.shiftLeft_eq]

theorem isWhole_large {n : Nat} (hn : 2 ^ 53 ≤ n) (hlt : n < 2 ^ 64) :
    IsWhole .positive (nearestNat n) (UnpackedFloat.ofScientific .binary64 n 0) := by
  have hlog := two_pow_le_log2 hn
  have hsplit : 2 ^ (n.log2 + 1) = spacing n * 2 ^ 53 := by
    rw [spacing, ← Nat.pow_add]
    congr 1
    omega
  rw [ofScientific_eq (by omega)]
  apply isWhole_round (k := n.log2 + 1) (a := 0) (b := 1)
  · rw [log2_mul_two_pow (by omega)]
    omega
  · omega
  · omega
  · rfl
  · rw [hsplit, roundDiv_mul _ _ (Nat.two_pow_pos 53), nearestNat]
    ring

theorem ofNat_large {n : Nat} (hn : 2 ^ 53 ≤ n) :
    Float.ofNat n = .ofModel (Float.Model.ofScientific n 0) := by
  show Float.ofScientific n false 0 = _
  rw [Float.ofScientific, dif_neg fun h => absurd h.1 (Nat.not_lt.2 hn)]
  rfl

theorem isWhole_ofNat {n : Nat} (hpos : 0 < n) (hn : n < 2 ^ 64) :
    IsWhole .positive (nearestNat n) (Float.ofNat n).toModel.unpack := by
  by_cases hsmall : n < 2 ^ 53
  · have hone : (Float.exactlyRepresentablePowersOfTen[0]).toModel.unpack =
        .finite .positive (2 ^ 52) (-52) (by decide) := rfl
    have hfloat : Float.ofNat n =
        n.toUInt64.toFloat * Float.exactlyRepresentablePowersOfTen[0] := by
      show Float.ofScientific n false 0 = _
      rw [Float.ofScientific, dif_pos ⟨hsmall, by decide⟩]
      rfl
    have hnat : n.toUInt64.toNat = n := Nat.mod_eq_of_lt hn
    have hwhole := isWhole_small hpos hsmall
    rw [nearestNat_of_lt hsmall, hfloat]
    show IsWhole _ _ (Float.Model.pack (UnpackedFloat.mul .binary64
      (Float.Model.pack (UnpackedFloat.ofNat .binary64 n.toUInt64.toNat)).unpack _)).unpack
    rw [hnat, unpack_pack hwhole hn.le, hone]
    have hmul := isWhole_mul_one hwhole hn.le
    rwa [unpack_pack hmul hn.le]
  · have hwhole := isWhole_large (Nat.le_of_not_lt hsmall) hn
    rw [ofNat_large (Nat.le_of_not_lt hsmall)]
    show IsWhole _ _ (Float.Model.pack (UnpackedFloat.ofScientific .binary64 n 0)).unpack
    rwa [unpack_pack hwhole (nearestNat_le hn)]

inductive Stands : Int → UnpackedFloat → Prop
  | zero : Stands 0 (.zero .positive)
  | pos {v : Nat} {f : UnpackedFloat} (h : IsWhole .positive v f) : Stands v f
  | neg {v : Nat} {f : UnpackedFloat} (h : IsWhole .negative v f) : Stands (-v) f

theorem Stands.beq_iff {m n : Int} (hf : Stands m f) (hg : Stands n g) :
    f.beq g = true ↔ m = n := by
  cases hf with
  | zero =>
    cases hg with
    | zero => exact iff_of_true rfl rfl
    | pos hg | neg hg =>
      have := hg.pos
      rw [(beq_whole_zero hg _).2]
      exact iff_of_false (by decide) (by omega)
  | pos hf =>
    have := hf.pos
    cases hg with
    | zero =>
      rw [(beq_whole_zero hf _).1]
      exact iff_of_false (by decide) (by omega)
    | pos hg =>
      rw [beq_whole_iff hf hg]
      omega
    | neg hg =>
      rw [beq_whole_ne hf hg]
      exact iff_of_false (by decide) (by omega)
  | neg hf =>
    have := hf.pos
    cases hg with
    | zero =>
      rw [(beq_whole_zero hf _).1]
      exact iff_of_false (by decide) (by omega)
    | pos hg =>
      rw [beq_whole_ne hf hg]
      exact iff_of_false (by decide) (by omega)
    | neg hg =>
      rw [beq_whole_iff hf hg]
      omega

theorem stands_ofInt {n : Int} (hn : n.natAbs < 2 ^ 64) :
    Stands (nearestInt n) (Float.ofInt n).toModel.unpack := by
  cases n with
  | ofNat n =>
    rcases Nat.eq_zero_or_pos n with rfl | hpos
    · exact .zero
    · have hsign : (Int.ofNat n).sign = 1 := Int.sign_eq_one_of_pos (Int.natCast_pos.2 hpos)
      rw [nearestInt, hsign, Int.one_mul]
      exact .pos (isWhole_ofNat hpos hn)
  | negSucc n =>
    have hwhole := (isWhole_ofNat n.succ_pos hn).neg
    rw [nearestInt, Int.sign_eq_neg_one_of_neg (Int.negSucc_lt_zero n), Int.neg_one_mul]
    apply Stands.neg
    show IsWhole _ _ (Float.Model.pack (Float.ofNat n.succ).toModel.unpack.neg).unpack
    rwa [unpack_pack hwhole (nearestNat_le hn)]

/-- Two whole numbers are equal as floating-point numbers exactly if they have the same one nearest
to them. -/
theorem ofInt_beq_iff {m n : Int} (hm : m.natAbs < 2 ^ 64) (hn : n.natAbs < 2 ^ 64) :
    (Float.ofInt m == Float.ofInt n) = true ↔ nearestInt m = nearestInt n :=
  (stands_ofInt hm).beq_iff (stands_ofInt hn)

theorem natAbs_nearestInt (n : Int) : (nearestInt n).natAbs = nearestNat n.natAbs := by
  rcases Int.lt_trichotomy n 0 with h | rfl | h
  · rw [nearestInt, Int.sign_eq_neg_one_of_neg h, Int.neg_one_mul, Int.natAbs_neg,
      Int.natAbs_natCast]
  · rfl
  · rw [nearestInt, Int.sign_eq_one_of_pos h, Int.one_mul, Int.natAbs_natCast]

theorem nearestInt_of_lt {n : Int} (hn : n.natAbs < 2 ^ 53) : nearestInt n = n := by
  rw [nearestInt, nearestNat_of_lt hn, Int.sign_mul_natAbs]

/-- Below `2^53` a number shares its nearest one with no other. -/
theorem nearestInt_inj_of_lt {m n : Int} (hm : m.natAbs < 2 ^ 53) :
    nearestInt m = nearestInt n ↔ m = n := by
  constructor
  · intro h
    by_cases hn : n.natAbs < 2 ^ 53
    · rwa [nearestInt_of_lt hm, nearestInt_of_lt hn] at h
    · have habs := congrArg Int.natAbs h
      have := le_nearestNat (Nat.le_of_not_lt hn)
      rw [nearestInt_of_lt hm, natAbs_nearestInt n] at habs
      omega
  · rintro rfl
    rfl

section Numbers

variable {f : UnpackedFloat}

theorem beq_self_of_ne (h : f ≠ .notANumber) : f.beq f = true := by
  cases f with
  | notANumber => exact absurd rfl h
  | infinity s => cases s <;> rfl
  | zero s => rfl
  | finite s m e hm => cases s <;> simp [UnpackedFloat.beq, UnpackedFloat.compare]

theorem unpack_packComponents_ne (s : Sign) {e : BitVec 11} {m : BitVec 52}
    (h : e = -1#11 → m = 0#52) :
    UnpackedFloat.unpack .binary64 (packComponents .binary64 s e m) ≠ .notANumber := by
  unfold UnpackedFloat.unpack
  simp only [unpackMantissa_packComponents, unpackExponent_packComponents]
  split
  · next he =>
    rw [if_pos (h he)]
    nofun
  · split
    · split <;> nofun
    · nofun

theorem unpack_pack_ne (h : f ≠ .notANumber) : (Float.Model.pack f).unpack ≠ .notANumber := by
  show UnpackedFloat.unpack .binary64 (pack .binary64 f) ≠ _
  have hinfinity (s : Sign) :
      UnpackedFloat.unpack .binary64 (packedInfinity .binary64 s) ≠ .notANumber :=
    unpack_packComponents_ne s fun _ => rfl
  cases f with
  | notANumber => exact absurd rfl h
  | infinity s => exact hinfinity s
  | zero s => exact unpack_packComponents_ne s fun _ => rfl
  | finite s m e hm =>
    simp only [UnpackedFloat.pack]
    split
    · exact hinfinity s
    next hfits =>
    split
    · refine unpack_packComponents_ne s fun he => absurd ?_ hfits
      have := congrArg BitVec.toNat he
      rw [BitVec.toNat_ofNat, BitVec.neg_one_eq_allOnes, BitVec.toNat_allOnes] at this
      omega
    · exact unpack_packComponents_ne s fun he => by simp at he

theorem Stands.ne {n : Int} (h : Stands n f) : f ≠ .notANumber := by
  cases h with
  | zero => nofun
  | pos h | neg h =>
    obtain ⟨M, k, hpos, rfl, -⟩ := h
    nofun

theorem ofNat_ne {n : Nat} (hn : 2 ^ 53 ≤ n) : (Float.ofNat n).toModel.unpack ≠ .notANumber := by
  have hround : UnpackedFloat.ofScientific .binary64 n 0 ≠ .notANumber := by
    rw [ofScientific_eq (by omega), roundWithAccuracy]
    dsimp only
    split <;> nofun
  rw [ofNat_large hn]
  exact unpack_pack_ne hround

/-- A whole number of any length is a number as a floating-point one, and so it equals itself. -/
theorem ofInt_beq_self (n : Int) : (Float.ofInt n == Float.ofInt n) = true := by
  refine beq_self_of_ne ?_
  by_cases hn : n.natAbs < 2 ^ 64
  · exact (stands_ofInt hn).ne
  cases n with
  | ofNat n =>
    have hlarge : 2 ^ 64 ≤ n := Nat.le_of_not_lt hn
    exact ofNat_ne (by omega)
  | negSucc n =>
    have hlarge : 2 ^ 64 ≤ n.succ := Nat.le_of_not_lt hn
    have hne := ofNat_ne (n := n.succ) (by omega)
    refine unpack_pack_ne (f := (Float.ofNat n.succ).toModel.unpack.neg) ?_
    cases h : (Float.ofNat n.succ).toModel.unpack with
    | notANumber => exact absurd h hne
    | infinity | zero | finite => nofun

end Numbers

end Rulebook.Decimal
