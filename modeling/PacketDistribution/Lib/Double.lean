/-
PacketDistribution.Lib.Double — the conversion of an unsigned integer to
`double`, which rounds to the nearest number with a significand of 53 bits,
ties to even.

* `toDouble_eq_self`: a number that is a `double` is converted exactly.
* `toDouble_nearest`: no `double` is nearer than the result.
-/
import Mathlib.Data.Nat.Log
import Mathlib.Tactic.Ring

namespace PacketDistribution.Lib

/-- The weight of the last bit that the significand of `n` keeps. -/
def lastPlace (n : Nat) : Nat :=
  2 ^ (Nat.log2 n - 52)

/-- `static_cast<double>(n)`. -/
def toDouble (n : Nat) : Nat :=
  let q := n / lastPlace n
  let r := n % lastPlace n
  if lastPlace n < 2 * r ∨ (lastPlace n = 2 * r ∧ q % 2 = 1) then (q + 1) * lastPlace n
  else q * lastPlace n

/-- The integer `x` has a significand of at most 53 bits. -/
def IsDouble (x : Nat) : Prop :=
  ∃ m k, m < 2 ^ 53 ∧ x = m * 2 ^ k

theorem lastPlace_pos (n : Nat) : 0 < lastPlace n :=
  Nat.two_pow_pos _

/-- The significand that is kept has 53 bits. -/
theorem div_lastPlace_lt (n : Nat) : n / lastPlace n < 2 ^ 53 := by
  rw [Nat.div_lt_iff_lt_mul (lastPlace_pos n), lastPlace, ← Nat.pow_add]
  exact Nat.lt_of_lt_of_le Nat.lt_log2_self (Nat.pow_le_pow_right (by decide) (by omega))

/-- Every `double` from the leading bit of `n` on is a multiple of the last
place. -/
theorem lastPlace_dvd {n x : Nat} (hx : IsDouble x) (h : 2 ^ Nat.log2 n ≤ x) : lastPlace n ∣ x := by
  obtain ⟨m, k, hm, rfl⟩ := hx
  have hlt : 2 ^ Nat.log2 n < 2 ^ (53 + k) := by
    rw [Nat.pow_add]
    exact Nat.lt_of_le_of_lt h (Nat.mul_lt_mul_of_pos_right hm (Nat.two_pow_pos k))
  have hle : Nat.log2 n < 53 + k := (Nat.pow_lt_pow_iff_right (by decide)).mp hlt
  exact Dvd.dvd.mul_left (Nat.pow_dvd_pow 2 (by omega)) m

theorem toDouble_eq_self {n : Nat} (h : IsDouble n) : toDouble n = n := by
  by_cases hn : n = 0
  · subst hn
    rfl
  · have hdvd : lastPlace n ∣ n := lastPlace_dvd h (Nat.log2_self_le hn)
    unfold toDouble
    rw [Nat.mod_eq_zero_of_dvd hdvd, if_neg (by have := lastPlace_pos n; omega)]
    exact Nat.div_mul_cancel hdvd

/-- Up to 53 bits every integer is a `double`. -/
theorem toDouble_of_le {n : Nat} (h : n ≤ 2 ^ 53) : toDouble n = n := by
  rcases Nat.lt_or_eq_of_le h with hlt | heq
  · exact toDouble_eq_self ⟨n, 0, hlt, by simp⟩
  · exact toDouble_eq_self ⟨1, 53, by decide, by simp [heq]⟩

theorem isDouble_toDouble (n : Nat) : IsDouble (toDouble n) := by
  have hq := div_lastPlace_lt n
  unfold toDouble
  dsimp only
  split
  · rcases Nat.lt_or_eq_of_le (Nat.succ_le_of_lt hq) with hlt | heq
    · exact ⟨_, _, hlt, rfl⟩
    · refine ⟨1, 53 + (Nat.log2 n - 52), by decide, ?_⟩
      rw [show n / lastPlace n + 1 = 2 ^ 53 from heq, lastPlace, Nat.pow_add, Nat.one_mul]
  · exact ⟨_, _, hq, rfl⟩

/-- The result is at most half a last place away, and at most as far as
either neighbouring multiple of the last place. -/
theorem toDouble_cases (n : Nat) :
    (toDouble n = n - n % lastPlace n ∧ 2 * (n % lastPlace n) ≤ lastPlace n) ∨
      (toDouble n = n + (lastPlace n - n % lastPlace n) ∧ lastPlace n ≤ 2 * (n % lastPlace n)) := by
  have hmod := Nat.mod_lt n (lastPlace_pos n)
  have hsplit := Nat.div_add_mod' n (lastPlace n)
  unfold toDouble
  dsimp only
  split
  · refine .inr ⟨?_, by omega⟩
    rw [Nat.succ_mul]
    omega
  · exact .inl ⟨by omega, by omega⟩

/-- Every `double` is at or below the last multiple of the last place up to
`n`, or at or beyond the next one. -/
theorem isDouble_cases {n x : Nat} (hn : n ≠ 0) (hx : IsDouble x) :
    x ≤ n / lastPlace n * lastPlace n ∨ (n / lastPlace n + 1) * lastPlace n ≤ x := by
  by_cases hlow : 2 ^ Nat.log2 n ≤ x
  · obtain ⟨c, rfl⟩ := lastPlace_dvd hx hlow
    rw [Nat.mul_comm (lastPlace n) c]
    rcases Nat.lt_or_ge (n / lastPlace n) c with hlt | hge
    · exact .inr (Nat.mul_le_mul_right _ (Nat.succ_le_of_lt hlt))
    · exact .inl (Nat.mul_le_mul_right _ hge)
  · -- below the leading bit of `n`, itself a multiple of the last place
    obtain ⟨c, hc⟩ := lastPlace_dvd (n := n) ⟨1, Nat.log2 n, by decide, (Nat.one_mul _).symm⟩ le_rfl
    have hquot : c ≤ n / lastPlace n := by
      rw [Nat.le_div_iff_mul_le (lastPlace_pos n), Nat.mul_comm, ← hc]
      exact Nat.log2_self_le hn
    have hmul := Nat.mul_le_mul_right (lastPlace n) hquot
    rw [Nat.mul_comm c, ← hc] at hmul
    exact .inl (by omega)

/-- No integer that is a `double` is nearer to `n` than the conversion. -/
theorem toDouble_nearest (n : Nat) {x : Nat} (hx : IsDouble x) :
    ((toDouble n : Int) - n).natAbs ≤ ((x : Int) - n).natAbs := by
  by_cases hn : n = 0
  · rw [hn, show toDouble 0 = 0 from rfl]
    simp
  · have hmod := Nat.mod_lt n (lastPlace_pos n)
    have hsplit := Nat.div_add_mod' n (lastPlace n)
    have hfar := isDouble_cases hn hx
    rw [Nat.succ_mul] at hfar
    obtain ⟨heq, hhalf⟩ | ⟨heq, hhalf⟩ := toDouble_cases n
    · rw [heq]
      omega
    · rw [heq]
      omega

end PacketDistribution.Lib
