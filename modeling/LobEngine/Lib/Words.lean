import Mathlib.Data.UInt

/-!
# 64-bit words read as natural numbers
-/

namespace UInt64

/-- Subtracting a minimum never wraps. -/
theorem toNat_sub_min (a b : UInt64) : (a - min a b).toNat = a.toNat - b.toNat := by
  rw [UInt64.toNat_sub_of_le _ _ Std.min_le_left, toNat_min]
  omega

theorem toNat_sub_min_right (a b : UInt64) : (b - min a b).toNat = b.toNat - a.toNat := by
  rw [UInt64.toNat_sub_of_le _ _ Std.min_le_right, toNat_min]
  omega

theorem pos_iff_toNat_pos {a : UInt64} : 0 < a ↔ 0 < a.toNat := lt_iff_toNat_lt

theorem min_pos {a b : UInt64} (ha : 0 < a) (hb : 0 < b) : 0 < min a b := by
  rw [pos_iff_toNat_pos] at ha hb ⊢
  rw [toNat_min]
  omega

theorem eq_zero_iff_toNat {a : UInt64} : a = 0 ↔ a.toNat = 0 := UInt64.toNat_inj.symm

end UInt64
