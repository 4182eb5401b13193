/-
PacketDistribution.Lib.Percent — a part of a total in percent, in any
ordered field. Of an empty total every part is 0 percent.

* `percent_le_percent_add`: the share of a part grows with the part while
  the rest stays the same.
* `percent_eq_percent_iff`: equal shares, by cross-multiplication.
-/
import Mathlib.Algebra.Order.Field.Basic
import Mathlib.Tactic.GCongr
import Mathlib.Tactic.Linarith
import Mathlib.Tactic.LinearCombination
import Mathlib.Tactic.Positivity

namespace PacketDistribution.Lib

variable {K : Type*} [Field K] [LinearOrder K]

/-- `part` of `total` in percent. -/
def percent (part total : K) : K :=
  if total = 0 then 0 else 100 * part / total

variable {part part' rest total total' : K}

@[simp] theorem percent_zero_right (part : K) : percent part 0 = 0 := by
  simp [percent]

@[simp] theorem percent_zero_left (total : K) : percent 0 total = 0 := by
  simp [percent]

theorem percent_of_ne (part : K) (h : total ≠ 0) : percent part total = 100 * part / total := by
  rw [percent, if_neg h]

theorem percent_self (h : total ≠ 0) : percent total total = 100 := by
  rw [percent_of_ne _ h]
  exact mul_div_cancel_right₀ 100 h

/-! ## Order -/

variable [IsStrictOrderedRing K]

theorem percent_nonneg (hpart : 0 ≤ part) (htotal : 0 ≤ total) : 0 ≤ percent part total := by
  unfold percent
  split
  · exact le_refl 0
  · positivity

/-- A larger part of one total is a larger share. -/
theorem percent_le_percent (htotal : 0 ≤ total) (h : part ≤ part') :
    percent part total ≤ percent part' total := by
  unfold percent
  split
  · exact le_refl 0
  · gcongr

theorem percent_le_hundred (htotal : 0 ≤ total) (h : part ≤ total) : percent part total ≤ 100 := by
  by_cases hzero : total = 0
  · rw [hzero, percent_zero_right]
    norm_num
  · calc percent part total ≤ percent total total := percent_le_percent htotal h
      _ = 100 := percent_self hzero

/-- More than the total is more than 100 percent. -/
theorem hundred_lt_percent (htotal : 0 < total) (h : total < part) : 100 < percent part total := by
  rw [percent_of_ne _ htotal.ne', lt_div_iff₀ htotal]
  linarith

/-- Equal shares of two totals. -/
theorem percent_eq_percent_iff (h : total ≠ 0) (h' : total' ≠ 0) :
    percent part total = percent part' total' ↔ part * total' = part' * total := by
  rw [percent_of_ne _ h, percent_of_ne _ h', div_eq_div_iff h h']
  constructor
  · intro heq
    linarith
  · intro heq
    linear_combination 100 * heq

theorem percent_right_inj (h : total ≠ 0) : percent part total = percent part' total ↔ part = part' := by
  rw [percent_eq_percent_iff h h]
  exact mul_left_inj' h

theorem percent_eq_zero_iff (h : total ≠ 0) : percent part total = 0 ↔ part = 0 := by
  constructor
  · intro heq
    exact (percent_right_inj h).mp (heq.trans (percent_zero_left total).symm)
  · rintro rfl
    exact percent_zero_left total

/-- The share of a part grows with the part while the rest stays the same. -/
theorem percent_le_percent_add (hpart : 0 ≤ part) (hrest : 0 ≤ rest) (h : part ≤ part') :
    percent part (part + rest) ≤ percent part' (part' + rest) := by
  by_cases hzero : part + rest = 0
  · rw [hzero, percent_zero_right]
    exact percent_nonneg (hpart.trans h) (by linarith)
  · have hpos : 0 < part + rest := lt_of_le_of_ne (by linarith) (Ne.symm hzero)
    have hpos' : 0 < part' + rest := by linarith
    rw [percent_of_ne _ hzero, percent_of_ne _ hpos'.ne', div_le_div_iff₀ hpos hpos']
    have hcross : part * rest ≤ part' * rest := mul_le_mul_of_nonneg_right h hrest
    linarith

end PacketDistribution.Lib
