import Mathlib
import ModelFormula.Plan.Expr
import ModelFormula.Table.Column

/-! # Products of floating-point numbers

What a product does with NaN and with zeros, and that one is neutral. An operation unpacks the bits
of its operands, computes, rounds and packs the result again, so these facts rest on what unpacking
makes of a packed number. So does that small natural numbers are told apart.
-/

namespace ModelFormula.Binary64

open Float.Model (Format UnpackedFloat totalExponent)

open Float.Model.UnpackedFloat

/-! ## Packing -/

section Packing

variable {b : BitVec Format.binary64.numBits} {sign : Sign} {m : Nat} {e : Int} {hm : 0 < m}

theorem pack_finite_ne_packedNaN :
    pack .binary64 (.finite sign m e hm) ≠ packedNaN .binary64 := by
  intro h
  have hexponent := congrArg unpackExponent h
  have hmantissa := congrArg unpackMantissa h
  rw [packedNaN, unpackExponent_packComponents] at hexponent
  rw [packedNaN, unpackMantissa_packComponents] at hmantissa
  simp only [pack] at hexponent hmantissa
  split at hexponent
  · next hlarge =>
    rw [if_pos hlarge, packedInfinity, unpackMantissa_packComponents] at hmantissa
    exact absurd hmantissa (by decide)
  · next hsmall =>
    split at hexponent
    · rw [unpackExponent_packComponents, ← BitVec.toNat_inj, BitVec.toNat_ofNat] at hexponent
      simp only [Nat.reducePow, Nat.not_le] at hsmall hexponent
      rw [Nat.mod_eq_of_lt (by omega)] at hexponent
      simp at hexponent
      omega
    · rw [unpackExponent_packComponents] at hexponent
      exact absurd hexponent (by decide)

theorem isNaN_unpack_pack (u : UnpackedFloat) :
    (unpack .binary64 (pack .binary64 u)).isNaN = u.isNaN := by
  rw [Bool.eq_iff_iff, isNaN_unpack_iff_of_valid valid_pack]
  cases u with
  | notANumber => exact ⟨fun _ => rfl, fun _ => rfl⟩
  | infinity sign => cases sign <;> decide
  | zero sign => cases sign <;> decide
  | finite sign m e hm => exact ⟨fun h => absurd h pack_finite_ne_packedNaN, nofun⟩

theorem log2_normal (v : BitVec 52) : (1#1 ++ v).toNat.log2 = 52 := by
  rw [BitVec.toNat_append, ← Nat.shiftLeft_add_eq_or_of_lt v.isLt, Nat.log2_eq_iff (by simp)]
  simp [Nat.shiftLeft_eq]
  omega

theorem log2_subnormal (v : BitVec 52) : v.toNat.log2 < 52 := by
  by_cases h : v.toNat = 0
  · rw [h]
    decide
  · exact (Nat.log2_lt h).mpr v.isLt

theorem targetExponent_eq (total : Int) :
    Format.binary64.targetExponent total = max (total - 53) (-1074) := rfl

/-- The exponent of an unpacked number is the one that rounding aims at. -/
theorem targetExponent_unpack (h : unpack .binary64 b = .finite sign m e hm) :
    Format.binary64.targetExponent (totalExponent m e) = e := by
  have hbias : Format.binary64.exponentBias = 1023 := rfl
  simp only [unpack, hbias] at h
  rw [targetExponent_eq, totalExponent]
  split at h
  · split at h <;> cases h
  · split at h
    · next hsmall =>
      split at h
      · cases h
      · cases h
        have := log2_subnormal (unpackMantissa b)
        rw [hsmall]
        simp
        omega
    · next hsmall =>
      cases h
      rw [log2_normal]
      have hne : (unpackExponent b).toNat ≠ 0 := fun h => hsmall (BitVec.eq_of_toNat_eq h)
      omega

end Packing

/-! ## Rounding -/

section Rounding

variable {sign : Sign} {m k : Nat} {e : Int} {accuracy : Accuracy}

theorem log2_mul_two_pow (hm : 0 < m) : (m * 2 ^ k).log2 = m.log2 + k := by
  have hpos : 0 < 2 ^ k := Nat.two_pow_pos k
  rw [Nat.log2_eq_iff (Nat.mul_pos hm hpos).ne', Nat.add_right_comm, Nat.pow_add, Nat.pow_add]
  constructor
  · exact Nat.mul_le_mul_right _ (Nat.log2_self_le hm.ne')
  · exact Nat.mul_lt_mul_of_pos_right Nat.lt_log2_self hpos

theorem shiftRight_mul_two_pow (m k : Nat) :
    (ExtendedMantissa.mk (m * 2 ^ k) false false) >>> k = ExtendedMantissa.mk m false false := by
  induction k generalizing m with
  | zero => rw [Nat.pow_zero, Nat.mul_one]; rfl
  | succ k ih =>
    have hshift := ih (m * 2)
    rw [Nat.mul_assoc, ← Nat.pow_succ'] at hshift
    change ((ExtendedMantissa.mk (m * 2 ^ (k + 1)) false false) >>> k).shiftRightOne = _
    rw [hshift]
    simp [ExtendedMantissa.shiftRightOne]

theorem shiftToTargetExponent_mul_two_pow (hm : 0 < m)
    (h : Format.binary64.targetExponent (totalExponent m e) = e) :
    shiftToTargetExponent .binary64 (m * 2 ^ k) (e - k) .exact = (⟨m, false, false⟩, e) := by
  have htotal : totalExponent (m * 2 ^ k) (e - k) = totalExponent m e := by
    rw [totalExponent, totalExponent, log2_mul_two_pow hm]
    omega
  have hshift : (e - (e - k)).toNat = k := by omega
  simp only [shiftToTargetExponent, htotal, h, shiftToExponent, hshift,
    ExtendedMantissa.ofMantissaAndAccuracy, shiftRight_mul_two_pow, Int.sub_add_cancel]

/-- A number that has the target exponent is rounded to itself. -/
theorem roundWithAccuracy_mul_two_pow (hm : 0 < m)
    (h : Format.binary64.targetExponent (totalExponent m e) = e) :
    roundWithAccuracy .binary64 sign (m * 2 ^ k) (e - k) .exact = .finite sign m e hm := by
  have hagain := shiftToTargetExponent_mul_two_pow (k := 0) hm h
  simp only [Nat.pow_zero, Nat.mul_one, Int.natCast_zero, Int.sub_zero] at hagain
  have hrounded : (ExtendedMantissa.mk m false false).roundedMantissa = m := rfl
  simp only [roundWithAccuracy, shiftToTargetExponent_mul_two_pow hm h, hrounded, hagain]
  rw [dif_neg hm.ne']

theorem isNaN_roundWithAccuracy :
    (roundWithAccuracy .binary64 sign m e accuracy).isNaN = false := by
  simp only [roundWithAccuracy]
  split <;> rfl

theorem isNaN_ofInt (n : Int) : (ofInt .binary64 n).isNaN = false := by
  unfold ofInt UnpackedFloat.normalize
  split
  · exact isNaN_roundWithAccuracy
  · rfl
  · exact isNaN_roundWithAccuracy

end Rounding

/-! ## Products -/

section Products

variable {x y : Float}

def IsZero (x : Float) : Prop := x = 0 ∨ x = -0

theorem toModel_mul (x y : Float) : (x * y).toModel =
    .pack (mul .binary64 x.toModel.unpack y.toModel.unpack) := rfl

theorem ofModel_pack_unpack (x : Float) : Float.ofModel (.pack x.toModel.unpack) = x :=
  Float.ofBits_toBits x

theorem unpack_one :
    (1 : Float).toModel.unpack = .finite .positive (2 ^ 52) (-52) (by decide) := rfl

theorem unpack_mul_one (b : BitVec Format.binary64.numBits) :
    mul .binary64 (unpack .binary64 b) (.finite .positive (2 ^ 52) (-52) (by decide)) =
      unpack .binary64 b := by
  cases h : unpack .binary64 b with
  | notANumber => rfl
  | infinity sign => cases sign <;> rfl
  | zero sign => cases sign <;> rfl
  | finite sign m e hm =>
    have hsign : sign * .positive = sign := by cases sign <;> rfl
    rw [mul, hsign]
    exact roundWithAccuracy_mul_two_pow hm (targetExponent_unpack h)

theorem mul_one (x : Float) : x * 1 = x := calc
  x * 1 = .ofModel (.pack (mul .binary64 x.toModel.unpack (1 : Float).toModel.unpack)) := rfl
  _ = .ofModel (.pack x.toModel.unpack) := by
    rw [unpack_one]
    exact congrArg (Float.ofModel ∘ .pack) (unpack_mul_one x.toModel.toBits.toBitVec)
  _ = x := ofModel_pack_unpack x

theorem mul_comm (x y : Float) : x * y = y * x := by
  have hsign (s s' : Sign) : s * s' = s' * s := by cases s <;> cases s' <;> rfl
  have hmul (u v : UnpackedFloat) : mul .binary64 u v = mul .binary64 v u := by
    cases u <;> cases v <;> simp only [mul, hsign, Nat.mul_comm, Int.add_comm]
  exact congrArg (Float.ofModel ∘ .pack) (hmul x.toModel.unpack y.toModel.unpack)

theorem isNaN_iff_unpack : x.isNaN = true ↔ x.toModel.unpack = .notANumber :=
  Float.Model.UnpackedFloat.isNaN_iff

theorem isNaN_mul : (x * y).isNaN = (mul .binary64 x.toModel.unpack y.toModel.unpack).isNaN :=
  isNaN_unpack_pack _

theorem isNaN_mul_left (h : x.isNaN = true) : (x * y).isNaN = true := by
  rw [isNaN_mul, isNaN_iff_unpack.mp h]
  rfl

theorem isNaN_mul_right (h : y.isNaN = true) : (x * y).isNaN = true := by
  rw [mul_comm]
  exact isNaN_mul_left h

theorem isZero_iff_unpack : IsZero x ↔ ∃ sign, x.toModel.unpack = .zero sign := by
  constructor
  · rintro (rfl | rfl)
    · exact ⟨.positive, rfl⟩
    · exact ⟨.negative, rfl⟩
  · rintro ⟨sign, h⟩
    have hx := ofModel_pack_unpack x
    rw [h] at hx
    cases sign with
    | positive => exact .inl hx.symm
    | negative => exact .inr hx.symm

namespace IsZero

theorem isNaN (h : IsZero x) : x.isNaN = false := by
  rcases h with rfl | rfl <;> rfl

theorem mul_left (hx : IsZero x) (hy : y.isFinite = true) : IsZero (x * y) := by
  obtain ⟨sign, hx⟩ := isZero_iff_unpack.mp hx
  change y.toModel.unpack.isFinite = true at hy
  have hproduct : ∃ sign', mul .binary64 (.zero sign) y.toModel.unpack = .zero sign' := by
    cases hclass : y.toModel.unpack with
    | notANumber | infinity =>
      rw [hclass] at hy
      cases hy
    | zero | finite => exact ⟨_, rfl⟩
  obtain ⟨sign', hproduct⟩ := hproduct
  refine isZero_iff_unpack.mpr ⟨sign', ?_⟩
  rw [toModel_mul, hx, hproduct]
  cases sign' <;> rfl

/-- A zero times what is not finite is NaN. -/
theorem isNaN_mul_left (hx : IsZero x) (hy : y.isFinite = false) : (x * y).isNaN = true := by
  obtain ⟨sign, hx⟩ := isZero_iff_unpack.mp hx
  change y.toModel.unpack.isFinite = false at hy
  rw [isNaN_mul, hx]
  cases hclass : y.toModel.unpack with
  | notANumber | infinity => rfl
  | zero | finite =>
    rw [hclass] at hy
    cases hy

theorem mul_right (hy : IsZero y) (hx : x.isFinite = true) : IsZero (x * y) := by
  rw [mul_comm]
  exact hy.mul_left hx

theorem isNaN_mul_right (hy : IsZero y) (hx : x.isFinite = false) : (x * y).isNaN = true := by
  rw [mul_comm]
  exact hy.isNaN_mul_left hx

end IsZero

theorem isNaN_sqrt (h : x.isNaN = true) : x.sqrt.isNaN = true := by
  refine (isNaN_unpack_pack (sqrt .binary64 x.toModel.unpack)).trans ?_
  rw [isNaN_iff_unpack.mp h]
  rfl

theorem isNaN_missing : missing.isNaN = true := rfl

theorem isNaN_ofNat (n : Nat) : (Float.ofNat n).isNaN = false := by
  change (Float.ofScientific n false 0).isNaN = false
  unfold Float.ofScientific
  split
  · change (n.toUInt64.toFloat * 1).isNaN = false
    rw [mul_one]
    exact (isNaN_unpack_pack _).trans (isNaN_ofInt _)
  · refine (isNaN_unpack_pack (ofScientific .binary64 n 0)).trans ?_
    unfold ofScientific
    split
    · rfl
    · have hsmall : ¬ (0 : Int) < -((2 ^ Format.binary64.exponentBits : Int) + n.log2) := by
        rw [Int.not_lt]
        simp only [Int.reducePow]
        omega
      rw [if_neg (by decide), if_neg hsmall, if_pos (by decide), mul]
      exact isNaN_roundWithAccuracy

end Products

/-! ## Natural numbers -/

section Naturals

variable {m n : Nat}

/-- A natural number with 53 digits at most is rounded to itself. -/
theorem ofInt_natCast (hpos : 0 < n) (h : n < 2 ^ 53) : ofInt .binary64 n =
    .finite .positive (n * 2 ^ (52 - n.log2)) (-(52 - n.log2 : Nat))
      (Nat.mul_pos hpos (Nat.two_pow_pos _)) := by
  have hlog : n.log2 < 53 := (Nat.log2_lt hpos.ne').mpr h
  have htarget : Format.binary64.targetExponent (totalExponent n 0) = -(52 - n.log2 : Nat) := by
    rw [targetExponent_eq, totalExponent]
    omega
  have hscaled : Format.binary64.targetExponent
      (totalExponent (n * 2 ^ (52 - n.log2)) (-(52 - n.log2 : Nat))) = -(52 - n.log2 : Nat) := by
    rw [targetExponent_eq, totalExponent, log2_mul_two_pow hpos]
    omega
  have hpositive : compare (n : Int) 0 = .gt := Int.compare_eq_gt.mpr (Int.natCast_pos.mpr hpos)
  have hmantissa : 0 < n * 2 ^ (52 - n.log2) := Nat.mul_pos hpos (Nat.two_pow_pos _)
  have hrounded : roundWithAccuracy .binary64 .positive (n * 2 ^ (52 - n.log2) * 2 ^ 0)
      (-(52 - n.log2 : Nat) - (0 : Nat)) .exact =
        .finite .positive (n * 2 ^ (52 - n.log2)) (-(52 - n.log2 : Nat)) hmantissa :=
    roundWithAccuracy_mul_two_pow hmantissa hscaled
  rw [Nat.pow_zero, Nat.mul_one, Int.natCast_zero, Int.sub_zero] at hrounded
  simp only [ofInt, UnpackedFloat.normalize, hpositive, Int.toNat_natCast, UnpackedFloat.round,
    htarget, decreaseExponent, Int.zero_sub, Int.neg_neg, Nat.shiftLeft_eq]
  exact hrounded

theorem pack_ofInt_natCast (hpos : 0 < n) (h : n < 2 ^ 53) : pack .binary64 (ofInt .binary64 n) =
    packComponents .binary64 .positive (BitVec.ofNat 11 (n.log2 + 1023))
      (BitVec.ofNat 52 (n * 2 ^ (52 - n.log2))) := by
  have hlog : n.log2 < 53 := (Nat.log2_lt hpos.ne').mpr h
  have hexponent : (-((52 - n.log2 : Nat) : Int) + Format.binary64.exponentBias +
      Format.binary64.mantissaBitsWithoutImplicit).toNat = n.log2 + 1023 := by
    change (-((52 - n.log2 : Nat) : Int) + 1023 + 52).toNat = _
    omega
  have hsmall : ¬ 2 ^ Format.binary64.exponentBits ≤ n.log2 + 1023 + 1 := by
    change ¬ 2 ^ 11 ≤ _
    omega
  have hdigits : (n * 2 ^ (52 - n.log2)).log2 + 1 = Format.binary64.mantissaBits := by
    change _ = 53
    rw [log2_mul_two_pow hpos]
    omega
  rw [ofInt_natCast hpos h]
  simp only [pack, hexponent]
  rw [if_neg hsmall, if_pos hdigits]

theorem unpackExponent_ofInt_natCast (hpos : 0 < n) (h : n < 2 ^ 53) :
    (unpackExponent (pack .binary64 (ofInt .binary64 n))).toNat = n.log2 + 1023 := by
  have hlog : n.log2 < 53 := (Nat.log2_lt hpos.ne').mpr h
  rw [pack_ofInt_natCast hpos h, unpackExponent_packComponents]
  change (n.log2 + 1023) % 2 ^ 11 = _
  omega

theorem unpackMantissa_ofInt_natCast (hpos : 0 < n) (h : n < 2 ^ 53) :
    (unpackMantissa (pack .binary64 (ofInt .binary64 n))).toNat + 2 ^ 52 =
      n * 2 ^ (52 - n.log2) := by
  have hlog : n.log2 < 53 := (Nat.log2_lt hpos.ne').mpr h
  have hdigits : (n * 2 ^ (52 - n.log2)).log2 = 52 := by
    rw [log2_mul_two_pow hpos]
    omega
  obtain ⟨hlow, hhigh⟩ :=
    (Nat.log2_eq_iff (Nat.mul_pos hpos (Nat.two_pow_pos _)).ne').mp hdigits
  rw [pack_ofInt_natCast hpos h, unpackMantissa_packComponents]
  change n * 2 ^ (52 - n.log2) % 2 ^ 52 + 2 ^ 52 = _
  omega

theorem bits_ofNat (h : n < 2 ^ 53) :
    (Float.ofNat n).toModel.toBits.toBitVec = pack .binary64 (ofInt .binary64 n) := by
  have hexact : Float.ofNat n = n.toUInt64.toFloat := by
    change Float.ofScientific n false 0 = _
    rw [Float.ofScientific, dif_pos ⟨h, Nat.zero_le _⟩]
    exact mul_one _
  have hword : n.toUInt64.toNat = n := by
    rw [Nat.toUInt64, UInt64.toNat_ofNat']
    exact Nat.mod_eq_of_lt (Nat.lt_trans h (by decide))
  rw [hexact]
  change pack .binary64 (ofInt .binary64 n.toUInt64.toNat) = _
  rw [hword]

/-- Natural numbers of 53 digits at most are told apart as floating-point numbers. -/
theorem ofNat_inj (hm : m < 2 ^ 53) (hn : n < 2 ^ 53) : Float.ofNat m = Float.ofNat n ↔ m = n := by
  refine ⟨fun h => ?_, fun h => by rw [h]⟩
  have hbits : pack .binary64 (ofInt .binary64 m) = pack .binary64 (ofInt .binary64 n) := by
    rw [← bits_ofNat hm, ← bits_ofNat hn, h]
  have hzero : (unpackExponent (pack .binary64 (ofInt .binary64 (0 : Nat)))).toNat = 0 := rfl
  have hexponent := congrArg (BitVec.toNat ∘ unpackExponent) hbits
  have hmantissa := congrArg (BitVec.toNat ∘ unpackMantissa) hbits
  simp only [Function.comp_apply] at hexponent hmantissa
  rcases Nat.eq_zero_or_pos m with rfl | hmpos <;> rcases Nat.eq_zero_or_pos n with rfl | hnpos
  · rfl
  · rw [hzero, unpackExponent_ofInt_natCast hnpos hn] at hexponent
    omega
  · rw [hzero, unpackExponent_ofInt_natCast hmpos hm] at hexponent
    omega
  · rw [unpackExponent_ofInt_natCast hmpos hm, unpackExponent_ofInt_natCast hnpos hn,
      Nat.add_right_cancel_iff] at hexponent
    have hdigits := unpackMantissa_ofInt_natCast hmpos hm
    rw [hmantissa, unpackMantissa_ofInt_natCast hnpos hn, hexponent] at hdigits
    exact (Nat.eq_of_mul_eq_mul_right (Nat.two_pow_pos _) hdigits).symm

end Naturals

/-! ## Products of lists -/

section Lists

variable {x start : Float} {xs : List Float}

theorem isNaN_foldl (h : start.isNaN = true) : (xs.foldl (· * ·) start).isNaN = true := by
  induction xs generalizing start with
  | nil => exact h
  | cons x xs ih => exact ih (isNaN_mul_left h)

theorem isNaN_productOf (hm : x ∈ xs) (h : x.isNaN = true) : (productOf xs).isNaN = true := by
  obtain ⟨before, after, rfl⟩ := List.append_of_mem hm
  rw [productOf, List.foldl_append, List.foldl_cons]
  exact isNaN_foldl (isNaN_mul_right h)

/-- A product that has become a zero stays one as long as its factors are finite. -/
theorem IsZero.foldl (h : IsZero start) (hxs : ∀ x ∈ xs, x.isFinite = true) :
    IsZero (xs.foldl (· * ·) start) := by
  induction xs generalizing start with
  | nil => exact h
  | cons x xs ih =>
    rw [List.forall_mem_cons] at hxs
    exact ih (h.mul_left hxs.1) hxs.2

theorem IsZero.isNaN_foldl (h : IsZero start) (hm : x ∈ xs) (hx : x.isFinite = false) :
    (xs.foldl (· * ·) start).isNaN = true := by
  induction xs generalizing start with
  | nil => cases hm
  | cons first xs ih =>
    rw [List.foldl_cons]
    rcases List.mem_cons.mp hm with rfl | hm
    · exact Binary64.isNaN_foldl (h.isNaN_mul_left hx)
    · cases hfirst : first.isFinite with
      | true => exact ih (h.mul_left hfirst) hm
      | false => exact Binary64.isNaN_foldl (h.isNaN_mul_left hfirst)

/-- A number is a zero under a condition and NaN without it. -/
def ZeroIf (condition : Prop) (x : Float) : Prop :=
  (condition → IsZero x) ∧ (¬ condition → x.isNaN = true)

/-- What a product becomes when it meets a zero. -/
theorem zeroIf_foldl_mul_zero : ZeroIf (start.isFinite = true ∧ ∀ x ∈ xs, x.isFinite = true)
    (xs.foldl (· * ·) (start * 0)) := by
  have hzero : IsZero 0 := .inl rfl
  constructor
  · rintro ⟨hstart, hxs⟩
    exact (hzero.mul_right hstart).foldl hxs
  · intro h
    cases hstart : start.isFinite with
    | false => exact isNaN_foldl (hzero.isNaN_mul_right hstart)
    | true =>
      obtain ⟨x, hx⟩ := not_forall.mp fun hxs => h ⟨hstart, hxs⟩
      rw [Classical.not_imp, Bool.not_eq_true] at hx
      exact (hzero.mul_right hstart).isNaN_foldl hx.1 hx.2

end Lists

end ModelFormula.Binary64
