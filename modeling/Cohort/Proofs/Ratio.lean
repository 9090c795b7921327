import Cohort.Agreement
import Mathlib.Algebra.Order.Ring.Int

/-! Quotients of equal numbers. The float of a word has a finite form, and what has one gives the
quotient one when it is divided by itself. -/

namespace Cohort

open Float.Model Float.Model.UnpackedFloat

theorem mantissa_shift (extended : ExtendedMantissa) (places : Nat) :
    (extended >>> places).mantissa = extended.mantissa / 2 ^ places := by
  induction places with
  | zero => exact (Nat.div_one _).symm
  | succ places ih =>
    change (extended >>> places).mantissa / 2 = _
    rw [ih, Nat.div_div_eq_div_mul, Nat.pow_succ]

theorem mantissa_ofMantissaAndAccuracy (m : Nat) (accuracy : Accuracy) :
    (ExtendedMantissa.ofMantissaAndAccuracy m accuracy).mantissa = m := by
  cases accuracy with
  | exact => rfl
  | inexact half => cases half <;> rfl

theorem roundedMantissa_bounds (extended : ExtendedMantissa) :
    extended.mantissa ≤ extended.roundedMantissa ∧
      extended.roundedMantissa ≤ extended.mantissa + 1 := by
  unfold ExtendedMantissa.roundedMantissa
  cases extended.accuracy with
  | exact => exact ⟨Nat.le_refl _, Nat.le_succ _⟩
  | inexact half => cases half <;> simp only [Accuracy.roundToNearestEven] <;> omega

theorem shift_bounds {m : Nat} (hm : 0 < m) {e : Int} (he : -1074 ≤ e) (accuracy : Accuracy) :
    ∃ places : Nat, (places : Int) ≤ max 0 (m.log2 - 52) ∧
      (shiftToTargetExponent .binary64 m e accuracy).2 = e + places ∧
      0 < (shiftToTargetExponent .binary64 m e accuracy).1.mantissa ∧
      (shiftToTargetExponent .binary64 m e accuracy).1.mantissa < 2 ^ 53 := by
  have htarget : Format.binary64.targetExponent (totalExponent m e) =
      max (m.log2 + 1 + e - 53) (-1074) := rfl
  have hplaces : (max ((m.log2 : Int) + 1 + e - 53) (-1074) - e).toNat = m.log2 - 52 := by omega
  have hlow := Nat.log2_self_le (Nat.ne_of_gt hm)
  have hhigh := @Nat.lt_log2_self m
  unfold shiftToTargetExponent shiftToExponent
  simp only [mantissa_shift, mantissa_ofMantissaAndAccuracy, htarget, hplaces]
  refine ⟨m.log2 - 52, by omega, rfl, ?_, ?_⟩
  · exact Nat.div_pos (Nat.le_trans (Nat.pow_le_pow_right (by decide) (Nat.sub_le _ _)) hlow)
      (Nat.two_pow_pos _)
  · rw [Nat.div_lt_iff_lt_mul (Nat.two_pow_pos _), ← Nat.pow_add]
    exact Nat.lt_of_lt_of_le hhigh (Nat.pow_le_pow_right (by decide) (by omega))

/-- A positive number rounds to a finite one, at most one place further up than it has to go. -/
theorem roundWithAccuracy_finite (sign : Sign) {m : Nat} (hm : 0 < m) {e : Int} (he : -1074 ≤ e)
    (accuracy : Accuracy) : ∃ m' e' hm',
      roundWithAccuracy .binary64 sign m e accuracy = .finite sign m' e' hm' ∧
        m' < 2 ^ 53 ∧ e ≤ e' ∧ e' ≤ e + max 0 (m.log2 - 52) + 1 := by
  obtain ⟨places, hplaces, hexponent, hpositive, hsmall⟩ := shift_bounds hm he accuracy
  unfold roundWithAccuracy
  generalize shiftToTargetExponent .binary64 m e accuracy = shifted at *
  obtain ⟨extended, exponent⟩ := shifted
  dsimp only at hexponent hpositive hsmall ⊢
  obtain ⟨hrounded, hnext⟩ := roundedMantissa_bounds extended
  have hround : 0 < extended.roundedMantissa := Nat.lt_of_lt_of_le hpositive hrounded
  have hlog : extended.roundedMantissa.log2 < 54 :=
    (Nat.log2_lt (Nat.ne_of_gt hround)).mpr (by omega)
  obtain ⟨more, hmore, hexponent', hpositive', hsmall'⟩ :=
    shift_bounds hround (e := exponent) (by omega) .exact
  rw [dif_neg (Nat.ne_of_gt hpositive')]
  exact ⟨_, _, _, rfl, hsmall', by omega, by omega⟩

theorem unpack_finite {bits : BitVec 64}
    (hexponent : @unpackExponent .binary64 bits ≠ -1#11)
    (hzero : @unpackExponent .binary64 bits ≠ 0#11 ∨ @unpackMantissa .binary64 bits ≠ 0#52) :
    ∃ sign m e hm, unpack .binary64 bits = .finite sign m e hm := by
  unfold UnpackedFloat.unpack
  dsimp only
  rw [if_neg hexponent]
  by_cases hsubnormal : @unpackExponent .binary64 bits = 0#11
  · have hmantissa := hzero.resolve_left (not_not_intro hsubnormal)
    have hpositive : 0 < (@unpackMantissa .binary64 bits).toNat := by
      simpa [BitVec.toNat_pos, BitVec.pos_iff_ne_zero] using hmantissa
    rw [if_pos hsubnormal, dif_neg hmantissa]
    exact ⟨_, _, _, hpositive, rfl⟩
  · have hpositive : 0 < (1#1 ++ @unpackMantissa .binary64 bits).toNat := by
      rw [BitVec.toNat_append, BitVec.toNat_ofNat]
      exact Nat.lt_of_lt_of_le (Nat.shiftLeft_pos_iff.mpr Nat.one_pos) Nat.left_le_or
    rw [if_neg hsubnormal]
    exact ⟨_, _, _, hpositive, rfl⟩

theorem pack_finite (sign : Sign) {m : Nat} (hm : 0 < m) {e : Int} {biased : Nat}
    (hbiased : e + 1023 + 52 = (biased : Int)) (hhigh : e ≤ 971) :
    pack .binary64 (.finite sign m e hm) =
      if m.log2 + 1 = 53 then packComponents .binary64 sign (.ofNat 11 biased) (.ofNat 52 m)
      else packComponents .binary64 sign 0#11 (.ofNat 52 m) := by
  unfold UnpackedFloat.pack
  have hexponent : (e + Format.binary64.exponentBias +
      Format.binary64.mantissaBitsWithoutImplicit).toNat = biased := by
    change (e + 1023 + 52).toNat = biased
    omega
  have hinfinity : ¬ 2 ^ Format.binary64.exponentBits ≤ biased + 1 := by
    change ¬ 2048 ≤ biased + 1
    omega
  simp only [hexponent, hinfinity, if_false]
  rfl

/-- What is finite and in the range of the format is still finite when it is read back. -/
theorem unpack_pack_finite (sign : Sign) {m : Nat} (hm : 0 < m) {e : Int} (hsmall : m < 2 ^ 53)
    (hlow : -1074 ≤ e) (hhigh : e ≤ 971) : ∃ sign' m' e' hm',
      unpack .binary64 (pack .binary64 (.finite sign m e hm)) = .finite sign' m' e' hm' := by
  obtain ⟨biased, hbiased⟩ := Int.eq_ofNat_of_zero_le (show 0 ≤ e + 1023 + 52 by omega)
  have hpack := pack_finite sign hm hbiased hhigh
  by_cases hlog : m.log2 + 1 = 53
  · have hvalue : (BitVec.ofNat 11 biased).toNat = biased := by
      rw [BitVec.toNat_ofNat]
      omega
    rw [hpack, if_pos hlog]
    apply unpack_finite
    · rw [unpackExponent_packComponents]
      intro heq
      rw [heq, show (-1#11).toNat = 2047 from rfl] at hvalue
      omega
    · rw [unpackExponent_packComponents]
      refine .inl fun heq => ?_
      rw [heq, show (0#11).toNat = 0 from rfl] at hvalue
      omega
  · have hless : m < 2 ^ 52 := by
      have hlog' : m.log2 < 53 := (Nat.log2_lt (Nat.ne_of_gt hm)).mpr hsmall
      exact (Nat.log2_lt (Nat.ne_of_gt hm)).mp (by omega)
    rw [hpack, if_neg hlog]
    apply unpack_finite
    · rw [unpackExponent_packComponents]
      decide
    · rw [unpackMantissa_packComponents]
      refine .inr fun heq => ?_
      have hvalue := congrArg BitVec.toNat heq
      rw [BitVec.toNat_ofNat, Nat.mod_eq_of_lt hless] at hvalue
      exact Nat.ne_of_gt hm hvalue

theorem unpack_toFloat {n : UInt64} (h : 0 < n.toNat) :
    ∃ sign m e hm, n.toFloat.toModel.unpack = .finite sign m e hm := by
  have hword := n.toNat_lt
  change ∃ sign m e hm, unpack .binary64 (pack .binary64
    (UnpackedFloat.normalize .binary64 (n.toNat : Int) 0 .positive)) = .finite sign m e hm
  generalize n.toNat = number at h hword
  have hlog : number.log2 < 64 := (Nat.log2_lt (Nat.ne_of_gt h)).mpr hword
  have htarget : Format.binary64.targetExponent (totalExponent number 0) =
      max ((number.log2 : Int) + 1 + 0 - 53) (-1074) := rfl
  have hplaces : (0 - max ((number.log2 : Int) + 1 + 0 - 53) (-1074)).toNat =
      52 - number.log2 := by omega
  have hpositive : 0 < number <<< (52 - number.log2) := Nat.shiftLeft_pos_iff.mpr h
  have hshifted : (number <<< (52 - number.log2)).log2 < 64 := by
    rw [Nat.log2_lt (Nat.ne_of_gt hpositive), Nat.shiftLeft_eq]
    calc number * 2 ^ (52 - number.log2)
        < 2 ^ (number.log2 + 1) * 2 ^ (52 - number.log2) :=
          Nat.mul_lt_mul_of_pos_right Nat.lt_log2_self (Nat.two_pow_pos _)
      _ = 2 ^ (number.log2 + 1 + (52 - number.log2)) := (Nat.pow_add ..).symm
      _ ≤ 2 ^ 64 := Nat.pow_le_pow_right (by decide) (by omega)
  obtain ⟨m, e, hm, hround, hsmall, hlow, hhigh⟩ := roundWithAccuracy_finite .positive hpositive
    (e := 0 - ((52 - number.log2 : Nat) : Int)) (by omega) .exact
  have hnormal : UnpackedFloat.normalize .binary64 (number : Int) 0 .positive =
      .finite .positive m e hm := by
    rw [← hround, UnpackedFloat.normalize, Int.compare_eq_gt.mpr (by omega)]
    simp only [UnpackedFloat.round, htarget, decreaseExponent, hplaces, Int.toNat_natCast]
  rw [hnormal]
  exact unpack_pack_finite _ hm hsmall (by omega) (by omega)

theorem div_self_of_finite {x : Float} {sign : Sign} {m : Nat} {e : Int} {hm : 0 < m}
    (h : x.toModel.unpack = .finite sign m e hm) : x / x = 1.0 := by
  change Float.ofModel (Float.Model.pack
    (UnpackedFloat.div .binary64 x.toModel.unpack x.toModel.unpack)) = 1.0
  have htarget : min (e - e) (Format.binary64.targetExponent
      (totalExponent m e - totalExponent m e)) = -53 := by
    change min (e - e) (max (totalExponent m e - totalExponent m e - 53) (-1074)) = -53
    omega
  have hquotient : divCore .binary64 m e m e = (2 ^ 53, -53, .exact) := by
    have hplaces : (e - e - -53).toNat = 53 := by omega
    simp only [divCore, htarget, hplaces, Nat.shiftLeft_eq, Nat.mul_div_cancel_left _ hm,
      Nat.mul_mod_right, accuracyOfFraction, if_true]
  rw [h]
  change Float.ofModel (Float.Model.pack (match divCore .binary64 m e m e with
    | (m, e, accuracy) => roundWithAccuracy .binary64 (sign / sign) m e accuracy)) = 1.0
  rw [hquotient]
  cases sign <;> rfl

end Cohort
