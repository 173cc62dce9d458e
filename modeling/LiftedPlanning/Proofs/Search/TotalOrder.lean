import LiftedPlanning.Search.Cost

/-!
# The order of all double-precision numbers

Double-precision numbers are put into a total order by their bits, those included that are no
number: negative ones of these come first and positive ones last, and minus zero precedes zero
(`Cost.totalCompare`). The ranks by which a search chooses open nodes follow this order
(`Cost.compare_rank_float`). `Float` has one value for all that is no number. As a cost it is the
sum of opposite infinities, which has a sign, so that it is read as `Cost.indefinite`.
-/

namespace LiftedPlanning

namespace Cost

/-- The bits as a signed integer. Among numbers with a sign those with larger bits are smaller, so
all bits but the sign are flipped. -/
def totalKey (bits : UInt64) : Int64 :=
  if bits.toInt64 < 0 then bits.toInt64 ^^^ Int64.maxValue else bits.toInt64

def totalCompare (a b : UInt64) : Ordering := compare (totalKey a) (totalKey b)

def totalRank (bits : UInt64) : Nat :=
  if bits.toNat < 0x8000000000000000 then 0x8000000000000000 + bits.toNat
  else 0xffffffffffffffff - bits.toNat

theorem toInt_toInt64 (bits : UInt64) :
    bits.toInt64.toInt = if bits.toNat < 0x8000000000000000 then (bits.toNat : Int)
      else bits.toNat - 0x10000000000000000 := by
  have hlt := bits.toNat_lt
  change bits.toBitVec.toInt = _
  rw [BitVec.toInt_eq_toNat_cond]
  change (if 2 * bits.toNat < 2 ^ 64 then (bits.toNat : Int) else bits.toNat - (2 ^ 64 : Nat)) = _
  split <;> split <;> omega

theorem toInt64_neg_iff (bits : UInt64) : bits.toInt64 < 0 ↔ 0x8000000000000000 ≤ bits.toNat := by
  have hlt := bits.toNat_lt
  rw [Int64.lt_iff_toInt_lt, toInt_toInt64, Int64.toInt_zero]
  split <;> omega

theorem xor_lowBits {n : Nat} (hle : 0x8000000000000000 ≤ n) (hlt : n < 0x10000000000000000) :
    n ^^^ 0x7fffffffffffffff = 0x17fffffffffffffff - n := by
  have hlow : n % 2 ^ 63 ^^^ 0x7fffffffffffffff = 0x7fffffffffffffff - n % 2 ^ 63 := by
    have hnot := BitVec.toNat_not (x := BitVec.ofNat 63 n)
    rwa [← BitVec.xor_allOnes, BitVec.toNat_xor, BitVec.toNat_ofNat] at hnot
  have hsplit := Nat.div_add_mod (n ^^^ 0x7fffffffffffffff) (2 ^ 63)
  rw [Nat.xor_div_two_pow, Nat.xor_mod_two_pow, show n / 2 ^ 63 = 1 by omega,
    show 0x7fffffffffffffff % 2 ^ 63 = 0x7fffffffffffffff from rfl, hlow] at hsplit
  change 2 ^ 63 * 1 + _ = _ at hsplit
  omega

theorem toInt_totalKey (bits : UInt64) :
    (totalKey bits).toInt = (totalRank bits : Int) - 0x8000000000000000 := by
  have hlt := bits.toNat_lt
  rw [totalKey, totalRank]
  by_cases hsign : 0x8000000000000000 ≤ bits.toNat
  · have hflip : (bits.toInt64 ^^^ Int64.maxValue).toBitVec.toNat =
        0x17fffffffffffffff - bits.toNat := xor_lowBits hsign hlt
    rw [if_pos ((toInt64_neg_iff bits).2 hsign), if_neg (by omega), Int64.toInt,
      BitVec.toInt_eq_toNat_cond, hflip]
    split <;> omega
  · rw [if_neg fun hneg => hsign ((toInt64_neg_iff bits).1 hneg), toInt_toInt64,
      if_pos (by omega), if_pos (by omega)]
    omega

theorem compare_totalRank (a b : UInt64) :
    compare (totalRank a) (totalRank b) = totalCompare a b := by
  have ha := toInt_totalKey a
  have hb := toInt_totalKey b
  have hlt : totalKey a < totalKey b ↔ totalRank a < totalRank b := by
    rw [Int64.lt_iff_toInt_lt]
    omega
  have heq : totalKey a = totalKey b ↔ totalRank a = totalRank b := by
    rw [← Int64.toInt_inj]
    omega
  change compareOfLessAndEq _ _ = compareOfLessAndEq _ _
  simp only [compareOfLessAndEq, hlt, heq]

/-! ## Numbers that occur as costs -/

def indefinite : UInt64 := 0xfff8000000000000

def floatBits (x : Float) : UInt64 := if x.isNaN then indefinite else x.toBits

section Fields

open Float.Model

theorem toNat_unpackExponent (b : BitVec 64) :
    (@UnpackedFloat.unpackExponent Format.binary64 b).toNat =
      b.toNat / 0x10000000000000 % 0x800 := by
  rw [UnpackedFloat.unpackExponent]
  simp [BitVec.extractLsb_toNat, Nat.shiftRight_eq_div_pow]

theorem toNat_unpackMantissa (b : BitVec 64) :
    (@UnpackedFloat.unpackMantissa Format.binary64 b).toNat = b.toNat % 0x10000000000000 := by
  rw [UnpackedFloat.unpackMantissa]
  simp [BitVec.extractLsb_toNat]

/-- The last bits are those of minus infinity, as all that is no number has the same bits, without a
sign. -/
theorem toNat_toBits_le (x : Float) : x.toBits.toNat ≤ 0xfff0000000000000 := by
  have hlt := x.toBits.toNat_lt
  refine Nat.le_of_not_lt fun hgt => ?_
  have hexponent : @UnpackedFloat.unpackExponent Format.binary64 x.toBits.toBitVec = (-1#_) := by
    refine BitVec.eq_of_toNat_eq ?_
    rw [toNat_unpackExponent]
    change x.toBits.toNat / 0x10000000000000 % 0x800 = 2047
    omega
  have hmantissa : @UnpackedFloat.unpackMantissa Format.binary64 x.toBits.toBitVec ≠ 0#_ := by
    intro hzero
    have hzero := congrArg BitVec.toNat hzero
    rw [toNat_unpackMantissa] at hzero
    change x.toBits.toNat % 0x10000000000000 = 0 at hzero
    omega
  have hbits : x.toBits.toNat = 0x7ff8000000000000 :=
    congrArg BitVec.toNat (x.toModel.valid.eq_packedNaN hexponent hmantissa)
  omega

end Fields

/-- The rank of a cost that is no number is less than that of any number, and so it is for the place
of its bits. -/
theorem floatRank_cases (x : Float) :
    (floatRank x = 0 ∧ totalRank (floatBits x) = 0x7ffffffffffff) ∨
      (floatRank x = totalRank (floatBits x) ∧ 0xfffffffffffff ≤ floatRank x) := by
  cases hx : x.isNaN with
  | true =>
    refine .inl ⟨if_pos hx, ?_⟩
    rw [floatBits, if_pos hx]
    rfl
  | false =>
    have hrank : floatRank x = totalRank x.toBits := by
      rw [floatRank, hx]
      rfl
    have hle := toNat_toBits_le x
    rw [hrank, floatBits, hx]
    refine .inr ⟨rfl, ?_⟩
    rw [totalRank]
    split <;> omega

theorem floatRank_lt_iff (x y : Float) :
    floatRank x < floatRank y ↔ totalRank (floatBits x) < totalRank (floatBits y) := by
  have hx := floatRank_cases x
  have hy := floatRank_cases y
  omega

theorem compare_rank_float (x y : Float) :
    compare (Cost.rank x) (Cost.rank y) = totalCompare (floatBits x) (floatBits y) := by
  rw [← compare_totalRank]
  change compare (floatRank x) (floatRank y) = _
  simp only [Nat.compare_eq_ite_lt, floatRank_lt_iff]

end Cost

end LiftedPlanning
