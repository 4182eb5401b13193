/-
PacketDistribution.Node.Load — the load of a node: what is used of a total,
in percent.

* `load_antitone`, `load_le_load_add`: how a load moves with its amounts.
* `percent_free_eq_load_iff`: the free share is the load exactly when half is
  free.
* `percent_eq_load_iff`: when a share of one total is the load of another.
-/
import PacketDistribution.Lib.Percent
import PacketDistribution.Node.NodeInfo

namespace PacketDistribution.Node

open PacketDistribution.Lib

/-- The used share in percent. -/
def load (total free : Nat) : ℚ :=
  percent ((total : ℚ) - free) total

theorem load_nonneg {total free : Nat} (h : free ≤ total) : 0 ≤ load total free := by
  have hle : (free : ℚ) ≤ total := by exact_mod_cast h
  exact percent_nonneg (by linarith) (Nat.cast_nonneg total)

theorem load_le_hundred (total free : Nat) : load total free ≤ 100 := by
  have hfree : (0 : ℚ) ≤ free := Nat.cast_nonneg free
  exact percent_le_hundred (Nat.cast_nonneg total) (by linarith)

theorem load_antitone (total : Nat) {free free' : Nat} (h : free ≤ free') :
    load total free' ≤ load total free := by
  have hle : (free : ℚ) ≤ free' := by exact_mod_cast h
  exact percent_le_percent (Nat.cast_nonneg total) (by linarith)

theorem load_eq_zero_iff {total free : Nat} (h : total ≠ 0) : load total free = 0 ↔ free = total := by
  have hne : (total : ℚ) ≠ 0 := by exact_mod_cast h
  rw [load, percent_eq_zero_iff hne, sub_eq_zero, Nat.cast_inj]
  exact eq_comm

/-- The free share is the used one exactly when half is free. -/
theorem percent_free_eq_load_iff {total free : Nat} (h : free ≤ total) :
    percent (free : ℚ) total = load total free ↔ 2 * free = total := by
  by_cases hzero : total = 0
  · subst hzero
    rw [Nat.le_zero.mp h]
    simp [load]
  · have hne : (total : ℚ) ≠ 0 := by exact_mod_cast hzero
    rw [load, percent_right_inj hne, ← Nat.cast_inj (R := ℚ)]
    push_cast
    constructor
    · intro heq
      linarith
    · intro heq
      linarith

/-- The load grows with what is used while what is free stays the same. -/
theorem load_le_load_add {used used' : Nat} (free : Nat) (h : used ≤ used') :
    load (used + free) free ≤ load (used' + free) free := by
  have hle : (used : ℚ) ≤ used' := by exact_mod_cast h
  have hgrows := percent_le_percent_add (Nat.cast_nonneg used) (Nat.cast_nonneg free) hle
  simpa [load] using hgrows

theorem load_zero_right {total : Nat} (h : total ≠ 0) : load total 0 = 100 := by
  have hne : (total : ℚ) ≠ 0 := by exact_mod_cast h
  rw [load, Nat.cast_zero, sub_zero, percent_self hne]

@[simp] theorem load_self (total : Nat) : load total total = 0 := by
  simp [load]

/-- A part of one amount is the used share of another. -/
theorem percent_eq_load_iff {part total total' free : Nat} (hpart : part ≤ total)
    (hfree : free ≤ total') :
    percent (part : ℚ) total = load total' free ↔
      part * total' = (total' - free) * total ∧ (total = 0 → free = total') ∧
        (total' = 0 → part = 0) := by
  by_cases htotal : total = 0
  · subst htotal
    rw [Nat.le_zero.mp hpart]
    by_cases htotal' : total' = 0
    · subst htotal'
      simp [load, Nat.le_zero.mp hfree]
    · have hzero : load total' free = 0 ↔ free = total' := load_eq_zero_iff htotal'
      simp [htotal', ← hzero, eq_comm]
  · have hne : (total : ℚ) ≠ 0 := by exact_mod_cast htotal
    by_cases htotal' : total' = 0
    · subst htotal'
      rw [show load 0 free = 0 by simp [load], percent_eq_zero_iff hne]
      simp [htotal]
    · have hne' : (total' : ℚ) ≠ 0 := by exact_mod_cast htotal'
      rw [load, percent_eq_percent_iff hne hne', ← Nat.cast_sub hfree]
      simp only [htotal, htotal', false_implies, and_true]
      exact_mod_cast Iff.rfl

/-- A division that is guarded by its divisor. -/
theorem divide_eq_percent (part : ℚ) {total : ℚ} (h : total ≠ 0) :
    divide (100 * part) total = some (percent part total) := by
  rw [divide, if_neg h, percent_of_ne _ h]

theorem toNat_eq_zero_of_not_pos {u : UInt64} (h : ¬ 0 < u) : u.toNat = 0 := by
  rw [UInt64.lt_iff_toNat_lt] at h
  exact Nat.eq_zero_of_not_pos h

/-- A share of a 64-bit total, guarded by the total. -/
theorem guarded_share (part total : UInt64) :
    (if 0 < total then divide (100 * part.toNat) total.toNat else some 0)
      = some (percent (part.toNat : ℚ) total.toNat) := by
  split
  · rename_i hpos
    have hne : (total.toNat : ℚ) ≠ 0 := by exact_mod_cast (UInt64.lt_iff_toNat_lt.mp hpos).ne'
    exact divide_eq_percent _ hne
  · rename_i hpos
    simp [toNat_eq_zero_of_not_pos hpos]

end PacketDistribution.Node
