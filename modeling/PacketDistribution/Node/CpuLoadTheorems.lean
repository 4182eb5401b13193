/-
PacketDistribution.Node.CpuLoadTheorems — what `getCPULoad` measures.

The branch for Windows returns the share of the user time, which leaves out
the busy part of the kernel time; the branches for Linux and macOS return the
idle share.

* `windows_getCPULoad`, `linux_getCPULoad`, `apple_getCPULoad`: what each
  branch returns, from the counters as numbers.
* `measuresBusyShare_iff`: on which readings that is the busy share.
-/
import PacketDistribution.Node.Load

namespace PacketDistribution.Node

open PacketDistribution.Lib

/-! ## Readings -/

/-- The counter in the two words. -/
def Windows.FileTime.count (t : Windows.FileTime) : Nat :=
  t.dwHighDateTime.toNat * 2 ^ 32 + t.dwLowDateTime.toNat

/-- Two successive readings of `GetSystemTimes`. No counter decreases, and
the kernel time includes the idle time. -/
structure SystemTimesReadings where
  last : Windows.SystemTimes
  now : Windows.SystemTimes
  idle_le : last.idleTime.count ≤ now.idleTime.count
  kernel_le : last.kernelTime.count ≤ now.kernelTime.count
  user_le : last.userTime.count ≤ now.userTime.count
  idle_le_kernel : now.idleTime.count - last.idleTime.count
    ≤ now.kernelTime.count - last.kernelTime.count

namespace SystemTimesReadings

def idle (r : SystemTimesReadings) : Nat := r.now.idleTime.count - r.last.idleTime.count
def kernel (r : SystemTimesReadings) : Nat := r.now.kernelTime.count - r.last.kernelTime.count
def user (r : SystemTimesReadings) : Nat := r.now.userTime.count - r.last.userTime.count

end SystemTimesReadings

/-- `/proc/stat`: the counters of its first line, and its other lines. The
time of guests is counted in `user` and `nice` too. -/
structure ProcStat where
  user : Nat
  nice : Nat
  system : Nat
  idle : Nat
  iowait : Nat
  irq : Nat
  softirq : Nat
  steal : Nat
  guest : Nat
  guestNice : Nat
  others : StdString
  sum_le : ((user + nice + system + idle + iowait + irq + softirq + steal : Nat) : Int) ≤ longLongMax
  guest_le : (guest : Int) ≤ longLongMax
  guestNice_le : (guestNice : Int) ≤ longLongMax

namespace ProcStat

def counters (s : ProcStat) : List Nat :=
  [s.user, s.nice, s.system, s.idle, s.iowait, s.irq, s.softirq, s.steal, s.guest, s.guestNice]

/-- The text of the file. -/
def content (s : ProcStat) : StdString :=
  ['c', 'p', 'u', ' '] ++ numeralRow s.counters ++ '\n' :: s.others

end ProcStat

/-- A reading on one of the platforms. -/
inductive CpuReading where
  | windows (times : SystemTimesReadings)
  | linux (stat : ProcStat)
  | apple (ticks : Apple.HostCpuLoadInfo)

namespace CpuReading

/-- The load the branch of the platform returns. -/
def getCPULoad : CpuReading → Option ℚ
  | windows times => Windows.getCPULoad times.last times.now
  | linux stat => Linux.getCPULoad (some stat.content)
  | apple ticks => Apple.getCPULoad (some ticks)

/-- The idle time. -/
def idle : CpuReading → Nat
  | windows times => times.idle
  | linux stat => stat.idle + stat.iowait
  | apple ticks => ticks.idle.toNat

/-- The busy time. -/
def busy : CpuReading → Nat
  | windows times => times.kernel - times.idle + times.user
  | linux stat => stat.user + stat.nice + stat.system + stat.irq + stat.softirq + stat.steal
  | apple ticks => ticks.user.toNat + ticks.system.toNat + ticks.nice.toNat

/-- All counted time. -/
def total (r : CpuReading) : Nat :=
  r.busy + r.idle

end CpuReading

/-! ## The property -/

/-- The calls on two readings return the busy share. It is in [0, 100], 0 when
all time was idle, 100 when none was, and does not decrease when the busy time
grows and the idle time stays the same. -/
structure MeasuresBusyShare (r r' : CpuReading) : Prop where
  value : r.getCPULoad = some (load r.total r.idle)
  value' : r'.getCPULoad = some (load r'.total r'.idle)
  bounds : ∀ x ∈ r.getCPULoad, 0 ≤ x ∧ x ≤ 100
  allIdle : r.busy = 0 → r.getCPULoad = some 0
  noneIdle : r.idle = 0 → r.total ≠ 0 → r.getCPULoad = some 100
  grows : r.idle = r'.idle → r.busy ≤ r'.busy →
    ∀ x ∈ r.getCPULoad, ∀ y ∈ r'.getCPULoad, x ≤ y

/-- The readings on which a branch returns the busy share. -/
def ShowsBusy : CpuReading → Prop
  | .windows times => times.kernel = times.idle ∧ times.kernel + times.user < 2 ^ 64
  | .linux stat => (CpuReading.linux stat).idle = (CpuReading.linux stat).busy
  | .apple ticks =>
      let r := CpuReading.apple ticks
      (r.total < 2 ^ 32 ∧ r.idle = r.busy) ∨
        -- the sum of the ticks wraps around to one that happens to fit
        (2 ^ 32 ≤ r.total ∧ 0 < r.idle ∧ r.idle * r.total = r.busy * (r.total % 2 ^ 32))

/-! ## Windows -/

namespace Windows

theorem FileTime.count_lt (t : FileTime) : t.count < 2 ^ 64 := by
  have hlow := t.dwLowDateTime.toNat_lt
  have hhigh := t.dwHighDateTime.toNat_lt
  unfold FileTime.count
  omega

/-- The two words, joined by shift and or, are the counter. -/
theorem FileTime.toNat_quadPart (t : FileTime) : t.quadPart.toNat = t.count := by
  have hlow := t.dwLowDateTime.toNat_lt
  have hhigh := t.dwHighDateTime.toNat_lt
  have hshift : (t.dwHighDateTime.toUInt64 <<< 32).toNat = t.dwHighDateTime.toNat <<< 32 := by
    rw [UInt64.toNat_shiftLeft, UInt32.toNat_toUInt64]
    show t.dwHighDateTime.toNat <<< 32 % 2 ^ 64 = _
    rw [Nat.shiftLeft_eq]
    omega
  rw [FileTime.quadPart, UInt64.toNat_or, hshift, UInt32.toNat_toUInt64, Nat.or_comm,
    ← Nat.shiftLeft_add_eq_or_of_lt hlow, Nat.shiftLeft_eq]
  rfl

theorem FileTime.toNat_sub_quadPart {last now : FileTime} (h : last.count ≤ now.count) :
    (now.quadPart - last.quadPart).toNat = now.count - last.count := by
  have hle : last.quadPart ≤ now.quadPart := by
    rw [UInt64.le_iff_toNat_le, toNat_quadPart, toNat_quadPart]
    exact h
  rw [UInt64.toNat_sub_of_le _ _ hle, toNat_quadPart, toNat_quadPart]

/-- The share of the user time in the sum, as far as that has 64 bits. -/
theorem windows_getCPULoad (r : SystemTimesReadings) :
    getCPULoad r.last r.now = some (percent (r.user : ℚ) ((r.kernel + r.user) % 2 ^ 64 : Nat)) := by
  have hkernel := FileTime.toNat_sub_quadPart r.kernel_le
  have huser := FileTime.toNat_sub_quadPart r.user_le
  unfold getCPULoad
  dsimp only
  rw [mul_comm, guarded_share, huser, UInt64.toNat_add, hkernel, huser]
  rfl

end Windows

/-! ## Linux -/

namespace Linux

theorem signed_of_nat {n : Nat} (h : (n : Int) ≤ longLongMax) : signed n = some (n : Int) := by
  rw [signed, if_pos]
  unfold longLongMin
  omega

/-- A sum of counters that is a `long long` is computed. -/
theorem signedSum_of_nat {n : Nat} {ns : List Nat} (h : ((n + ns.sum : Nat) : Int) ≤ longLongMax) :
    signedSum n (ns.map Nat.cast) = some ((n + ns.sum : Nat) : Int) := by
  induction ns generalizing n with
  | nil => simp [signedSum]
  | cons m ns ih =>
      rw [List.sum_cons, ← Nat.add_assoc] at h ⊢
      have hfirst : signed ((n : Int) + m) = some ((n + m : Nat) : Int) := by
        rw [← Nat.cast_add]
        exact signed_of_nat (by omega)
      rw [signedSum, List.map_cons, List.foldlM_cons, hfirst]
      exact ih h

/-- The counters of the first line are converted. -/
theorem sscanf_content (s : ProcStat) :
    sscanf statFormat (cString (s.content.takeWhile (· ≠ '\n')))
      = some (s.counters.map fun n => .number n) := by
  have hrow : ∀ c ∈ ['c', 'p', 'u', ' '] ++ numeralRow s.counters, c ≠ '\n' ∧ c ≠ '\x00' := by
    intro c hc
    rcases List.mem_append.mp hc with hcpu | hnumeral
    · have hfixed : ∀ c ∈ ['c', 'p', 'u', ' '], c ≠ '\n' ∧ c ≠ '\x00' := by simp
      exact hfixed c hcpu
    · rcases mem_numeralRow hnumeral with rfl | hdigit
      · decide
      · constructor <;> (rintro rfl; cases hdigit)
  have hline : s.content.takeWhile (· ≠ '\n') = ['c', 'p', 'u', ' '] ++ numeralRow s.counters := by
    rw [ProcStat.content, List.takeWhile_append_of_pos (by simpa using fun c hc => (hrow c hc).1)]
    simp
  have hstring : cString (['c', 'p', 'u', ' '] ++ numeralRow s.counters)
      = ['c', 'p', 'u', ' '] ++ numeralRow s.counters :=
    cString_of_not_mem fun hmem => (hrow _ hmem).2 rfl
  have hcounters : ∀ n ∈ s.counters, (n : Int) ≤ longLongMax := by
    have hsum := s.sum_le
    simp only [ProcStat.counters, List.forall_mem_cons]
    refine ⟨?_, ?_, ?_, ?_, ?_, ?_, ?_, ?_, s.guest_le, s.guestNice_le, by simp⟩ <;> omega
  have hformat : statFormat = .char 'c' :: .char 'p' :: .char 'u' ::
      s.counters.flatMap fun _ => [.space, .lld] := rfl
  rw [hline, hstring, ← sscanf_numbers hcounters, hformat, List.cons_append, sscanf_char,
    List.cons_append, sscanf_char, List.cons_append, sscanf_char]
  exact sscanf_space_cons rfl _ _

/-- The idle share of all counted time. -/
theorem linux_getCPULoad (s : ProcStat) :
    getCPULoad (some s.content)
      = some (percent ((CpuReading.linux s).idle : ℚ) (CpuReading.linux s).total) := by
  have hsum := s.sum_le
  have hidle : signed ((s.idle : Int) + s.iowait) = some ((s.idle + s.iowait : Nat) : Int) := by
    rw [← Nat.cast_add]
    exact signed_of_nat (by omega)
  have htotal := @signedSum_of_nat s.user
    [s.nice, s.system, s.idle + s.iowait, s.irq, s.softirq, s.steal]
    (by simp only [List.sum_cons, List.sum_nil]; omega)
  have hsum' : s.user + [s.nice, s.system, s.idle + s.iowait, s.irq, s.softirq, s.steal].sum
      = (CpuReading.linux s).total := by
    simp only [CpuReading.total, CpuReading.busy, CpuReading.idle, List.sum_cons, List.sum_nil]
    omega
  rw [hsum'] at htotal
  unfold getCPULoad
  dsimp only [Option.getD_some]
  rw [sscanf_content]
  show ((signed ((s.idle : Int) + s.iowait)).bind fun idleTime =>
    (signedSum s.user [(s.nice : Int), s.system, idleTime, s.irq, s.softirq, s.steal]).bind
      fun totalTime => if 0 < totalTime then divide (100 * idleTime) totalTime else some 0) = _
  simp only [List.map_cons, List.map_nil] at htotal
  rw [hidle, Option.bind_some, htotal, Option.bind_some]
  by_cases hzero : (CpuReading.linux s).total = 0
  · simp [hzero]
  · have hne : (((CpuReading.linux s).total : Int) : ℚ) ≠ 0 := by exact_mod_cast hzero
    rw [if_pos (by omega), divide_eq_percent _ hne, Int.cast_natCast, Int.cast_natCast]
    rfl

end Linux

/-! ## macOS -/

/-- The idle share in the 32-bit sum of the ticks. -/
theorem apple_getCPULoad (ticks : Apple.HostCpuLoadInfo) :
    Apple.getCPULoad (some ticks)
      = some (percent ((CpuReading.apple ticks).idle : ℚ)
        ((CpuReading.apple ticks).total % 2 ^ 32 : Nat)) := by
  have hsum : (ticks.user + ticks.system + ticks.nice + ticks.idle).toNat
      = (CpuReading.apple ticks).total % 2 ^ 32 := by
    rw [UInt32.toNat_add, UInt32.toNat_add, UInt32.toNat_add]
    show _ = (ticks.user.toNat + ticks.system.toNat + ticks.nice.toNat + ticks.idle.toNat) % 2 ^ 32
    omega
  unfold Apple.getCPULoad
  dsimp only
  rw [guarded_share, UInt32.toNat_toUInt64, UInt32.toNat_toUInt64, hsum]
  rfl

/-! ## When a branch returns the busy share -/

/-- The user share is the load exactly when the kernel time is the idle time
and the sum has not wrapped around. -/
theorem percent_user_eq_load_iff {kernel user idle : Nat} (hidle : idle ≤ kernel)
    (hkernel : kernel < 2 ^ 64) (huser : user < 2 ^ 64) :
    percent (user : ℚ) ((kernel + user) % 2 ^ 64 : Nat) = load (kernel + user) idle ↔
      kernel = idle ∧ kernel + user < 2 ^ 64 := by
  by_cases hfits : kernel + user < 2 ^ 64
  · rw [Nat.mod_eq_of_lt hfits, percent_eq_load_iff (Nat.le_add_left user kernel) (by omega)]
    constructor
    · rintro ⟨hcross, hzero, -⟩
      refine ⟨?_, hfits⟩
      by_cases hsum : kernel + user = 0
      · have hall := hzero hsum
        omega
      · have hcancel := Nat.eq_of_mul_eq_mul_right (Nat.pos_of_ne_zero hsum) hcross
        omega
    · rintro ⟨rfl, -⟩
      rw [Nat.add_sub_cancel_left]
      exact ⟨rfl, by omega, by omega⟩
  · refine iff_of_false (fun heq => ?_) fun h => hfits h.2
    by_cases hwrapped : (kernel + user) % 2 ^ 64 = 0
    · rw [hwrapped, Nat.cast_zero, percent_zero_right, eq_comm, load_eq_zero_iff (by omega)] at heq
      omega
    · -- the wrapped sum is below the user time
      have hpos : (0 : ℚ) < ((kernel + user) % 2 ^ 64 : Nat) := by
        exact_mod_cast Nat.pos_of_ne_zero hwrapped
      have hlt : (((kernel + user) % 2 ^ 64 : Nat) : ℚ) < user := by
        have hmod : (kernel + user) % 2 ^ 64 < user := by omega
        exact_mod_cast hmod
      have hover := hundred_lt_percent hpos hlt
      rw [heq] at hover
      exact absurd (load_le_hundred _ _) (not_le.mpr hover)

/-- The idle share in a sum that may have wrapped around. -/
theorem percent_idle_eq_load_iff {busy idle : Nat} (hidle : idle < 2 ^ 32) :
    percent (idle : ℚ) ((busy + idle) % 2 ^ 32 : Nat) = load (busy + idle) idle ↔
      (busy + idle < 2 ^ 32 ∧ idle = busy) ∨
        (2 ^ 32 ≤ busy + idle ∧ 0 < idle ∧ idle * (busy + idle) = busy * ((busy + idle) % 2 ^ 32)) := by
  by_cases hfits : busy + idle < 2 ^ 32
  · rw [Nat.mod_eq_of_lt hfits, percent_free_eq_load_iff (Nat.le_add_left idle busy),
      or_iff_left fun h => absurd hfits (by omega)]
    omega
  · rw [or_iff_right fun h => hfits h.1, and_iff_right (Nat.le_of_not_lt hfits)]
    have htotal : busy + idle ≠ 0 := by omega
    by_cases hwrapped : (busy + idle) % 2 ^ 32 = 0
    · rw [hwrapped, Nat.cast_zero, percent_zero_right, Nat.mul_zero, eq_comm, load_eq_zero_iff htotal]
      refine iff_of_false (by omega) ?_
      rintro ⟨hpos, hcross⟩
      rcases Nat.mul_eq_zero.mp hcross with hzero | hzero <;> omega
    · have hne : ((busy + idle : Nat) : ℚ) ≠ 0 := by exact_mod_cast htotal
      have hne' : (((busy + idle) % 2 ^ 32 : Nat) : ℚ) ≠ 0 := by exact_mod_cast hwrapped
      rw [load, percent_eq_percent_iff hne' hne, ← Nat.cast_sub (Nat.le_add_left idle busy),
        Nat.add_sub_cancel, ← Nat.cast_mul, ← Nat.cast_mul, Nat.cast_inj]
      refine (and_iff_right_of_imp fun hcross => Nat.pos_of_ne_zero ?_).symm
      rintro rfl
      rw [Nat.zero_mul, eq_comm] at hcross
      rcases Nat.mul_eq_zero.mp hcross with hzero | hzero <;> omega

/-- Every branch returns the busy share exactly on the readings of
`ShowsBusy`. -/
theorem getCPULoad_eq_iff (r : CpuReading) :
    r.getCPULoad = some (load r.total r.idle) ↔ ShowsBusy r := by
  cases r with
  | windows times =>
      rw [CpuReading.getCPULoad, Windows.windows_getCPULoad, Option.some_inj]
      have htotal : (CpuReading.windows times).total = times.kernel + times.user := by
        have hle : times.idle ≤ times.kernel := times.idle_le_kernel
        simp only [CpuReading.total, CpuReading.busy, CpuReading.idle]
        omega
      rw [htotal]
      refine percent_user_eq_load_iff times.idle_le_kernel ?_ ?_
      · exact Nat.lt_of_le_of_lt (Nat.sub_le _ _) (Windows.FileTime.count_lt _)
      · exact Nat.lt_of_le_of_lt (Nat.sub_le _ _) (Windows.FileTime.count_lt _)
  | linux stat =>
      rw [CpuReading.getCPULoad, Linux.linux_getCPULoad, Option.some_inj]
      refine (percent_free_eq_load_iff (Nat.le_add_left _ _)).trans ?_
      show 2 * (CpuReading.linux stat).idle = (CpuReading.linux stat).busy + (CpuReading.linux stat).idle
        ↔ (CpuReading.linux stat).idle = (CpuReading.linux stat).busy
      omega
  | apple ticks =>
      rw [CpuReading.getCPULoad, apple_getCPULoad, Option.some_inj]
      exact percent_idle_eq_load_iff ticks.idle.toNat_lt

/-- Two calls on any platforms measure the busy share if and only if both
readings are among those of `ShowsBusy`. -/
theorem measuresBusyShare_iff (r r' : CpuReading) :
    MeasuresBusyShare r r' ↔ ShowsBusy r ∧ ShowsBusy r' := by
  rw [← getCPULoad_eq_iff, ← getCPULoad_eq_iff]
  constructor
  · exact fun h => ⟨h.value, h.value'⟩
  · rintro ⟨hvalue, hvalue'⟩
    refine ⟨hvalue, hvalue', ?_, ?_, ?_, ?_⟩
    · intro x hx
      obtain rfl := Option.some.inj (hvalue.symm.trans hx)
      exact ⟨load_nonneg (Nat.le_add_left _ _), load_le_hundred _ _⟩
    · intro hbusy
      have htotal : r.total = r.idle := by
        rw [CpuReading.total, hbusy, Nat.zero_add]
      rw [hvalue, htotal, load_self]
    · intro hidle htotal
      rw [hvalue, hidle, load_zero_right htotal]
    · intro hidle hbusy x hx y hy
      obtain rfl := Option.some.inj (hvalue.symm.trans hx)
      obtain rfl := Option.some.inj (hvalue'.symm.trans hy)
      rw [CpuReading.total, CpuReading.total, hidle]
      exact load_le_load_add _ hbusy

/-- A node on Linux that has only been idle. -/
def idleNode : ProcStat where
  user := 0
  nice := 0
  system := 0
  idle := 100
  iowait := 0
  irq := 0
  softirq := 0
  steal := 0
  guest := 0
  guestNice := 0
  others := []
  sum_le := by decide
  guest_le := by decide
  guestNice_le := by decide

/-- Its CPU load is 100. -/
theorem idle_node_fully_loaded :
    (CpuReading.linux idleNode).busy = 0 ∧ (CpuReading.linux idleNode).getCPULoad = some 100 ∧
      ¬ MeasuresBusyShare (.linux idleNode) (.linux idleNode) := by
  have hload : (CpuReading.linux idleNode).getCPULoad = some 100 := by decide +kernel
  refine ⟨rfl, hload, fun h => ?_⟩
  have hidle := h.allIdle rfl
  rw [hload] at hidle
  exact absurd hidle (by decide +kernel)

end PacketDistribution.Node
