/-
PacketDistribution.Node.MemoryLoadTheorems — what `getRAMLoad` and
`getSwapLoad` say about an amount of memory.

The branches of `getRAMLoad` for Windows and Linux return the used share, the
three branches of `getSwapLoad` the free one, and `getRAMLoad` on macOS the
used share of the swap space.

* `getLoad_eq_iff`: on which readings a branch returns the used share.
* `oneMeaning_iff`: on which readings two branches mean the same thing.
-/
import PacketDistribution.Node.Load

namespace PacketDistribution.Node

open PacketDistribution.Lib

/-! ## Readings -/

/-- The two kinds of memory that have a load. -/
inductive MemoryKind where
  | ram
  | swap
  deriving DecidableEq

/-- The memory of a node, on each platform. On macOS the two amounts of RAM
are no part of what the code reads. -/
inductive MemoryInfo where
  | windows (memInfo : Windows.MemoryStatus)
  | linux (memInfo : Linux.Sysinfo)
  | apple (totalRAM freeRAM : UInt64) (vmusage : Apple.XswUsage)
  deriving DecidableEq

namespace MemoryInfo

/-- The load a branch returns. -/
def getLoad : MemoryInfo → MemoryKind → Option ℚ
  | windows memInfo, .ram => Windows.getRAMLoad memInfo
  | windows memInfo, .swap => Windows.getSwapLoad memInfo
  | linux memInfo, .ram => Linux.getRAMLoad memInfo
  | linux memInfo, .swap => Linux.getSwapLoad memInfo
  | apple _ _ vmusage, .ram => Apple.getRAMLoad (some vmusage)
  | apple _ _ vmusage, .swap => Apple.getSwapLoad (some vmusage)

/-- The whole amount. -/
def total : MemoryInfo → MemoryKind → Nat
  | windows memInfo, .ram => memInfo.ullTotalPhys.toNat
  | windows memInfo, .swap => memInfo.ullTotalPageFile.toNat
  | linux memInfo, .ram => memInfo.totalram.toNat
  | linux memInfo, .swap => memInfo.totalswap.toNat
  | apple totalRAM _ _, .ram => totalRAM.toNat
  | apple _ _ vmusage, .swap => vmusage.xsuTotal.toNat

/-- The free amount. For the RAM of Linux it includes buffers and shared
memory. -/
def free : MemoryInfo → MemoryKind → Nat
  | windows memInfo, .ram => memInfo.ullAvailPhys.toNat
  | windows memInfo, .swap => memInfo.ullAvailPageFile.toNat
  | linux memInfo, .ram =>
      memInfo.freeram.toNat + memInfo.bufferram.toNat + memInfo.sharedram.toNat
  | linux memInfo, .swap => memInfo.freeswap.toNat
  | apple _ freeRAM _, .ram => freeRAM.toNat
  | apple _ _ vmusage, .swap => vmusage.xsuAvail.toNat

/-- On macOS, what is not available is used. -/
def UsedRest : MemoryInfo → Prop
  | apple _ _ vmusage => vmusage.xsuUsed.toNat + vmusage.xsuAvail.toNat = vmusage.xsuTotal.toNat
  | _ => True

end MemoryInfo

/-- A reading the operating system can return. -/
structure MemoryReading where
  info : MemoryInfo
  free_le : ∀ kind, info.free kind ≤ info.total kind
  used : info.UsedRest

/-! ## The property -/

/-- Two calls, of either function on either reading, return the used share
without a division by zero. It is in [0, 100], does not increase when the free
amount grows, and depends on the two amounts only. -/
structure OneMeaning (r r' : MemoryReading) (kind kind' : MemoryKind) : Prop where
  value : r.info.getLoad kind = some (load (r.info.total kind) (r.info.free kind))
  value' : r'.info.getLoad kind' = some (load (r'.info.total kind') (r'.info.free kind'))
  bounds : ∀ x ∈ r.info.getLoad kind, 0 ≤ x ∧ x ≤ 100
  antitone : r.info.total kind = r'.info.total kind' → r.info.free kind ≤ r'.info.free kind' →
    ∀ x ∈ r.info.getLoad kind, ∀ y ∈ r'.info.getLoad kind', y ≤ x
  agree : r.info.total kind = r'.info.total kind' → r.info.free kind = r'.info.free kind' →
    r.info.getLoad kind = r'.info.getLoad kind'

/-- The readings on which a branch returns the used share. -/
def ShowsUsed : MemoryInfo → MemoryKind → Prop
  | .windows _, .ram => True
  | .windows memInfo, .swap => 2 * memInfo.ullAvailPageFile.toNat = memInfo.ullTotalPageFile.toNat
  | .linux memInfo, .ram =>
      memInfo.totalram.toNat < 2 ^ 63 ∨
        memInfo.freeram.toNat + memInfo.bufferram.toNat + memInfo.sharedram.toNat
          = memInfo.totalram.toNat
  | .linux memInfo, .swap =>
      2 * memInfo.freeswap.toNat = memInfo.totalswap.toNat ∨
        (2 ^ 63 ≤ memInfo.freeswap.toNat ∧ memInfo.freeswap = memInfo.totalswap)
  | .apple totalRAM freeRAM vmusage, .ram =>
      -- the used shares of the swap space and of the RAM are the same
      vmusage.xsuUsed.toNat * totalRAM.toNat
          = (totalRAM.toNat - freeRAM.toNat) * vmusage.xsuTotal.toNat ∧
        (vmusage.xsuTotal = 0 → freeRAM = totalRAM) ∧ (totalRAM = 0 → vmusage.xsuUsed = 0)
  | .apple _ _ vmusage, .swap => 2 * vmusage.xsuAvail.toNat = vmusage.xsuTotal.toNat

/-! ## The branches -/

theorem windows_getRAMLoad {memInfo : Windows.MemoryStatus}
    (h : memInfo.ullAvailPhys.toNat ≤ memInfo.ullTotalPhys.toNat) :
    Windows.getRAMLoad memInfo
      = some (load memInfo.ullTotalPhys.toNat memInfo.ullAvailPhys.toNat) := by
  unfold Windows.getRAMLoad
  dsimp only
  rw [guarded_share, UInt64.toNat_sub_of_le _ _ (UInt64.le_iff_toNat_le.mpr h), Nat.cast_sub h]
  rfl

/-- The free share, also where nothing is free. -/
theorem windows_getSwapLoad {memInfo : Windows.MemoryStatus}
    (h : memInfo.ullAvailPageFile.toNat ≤ memInfo.ullTotalPageFile.toNat) :
    Windows.getSwapLoad memInfo
      = some (percent (memInfo.ullAvailPageFile.toNat : ℚ) memInfo.ullTotalPageFile.toNat) := by
  unfold Windows.getSwapLoad
  dsimp only
  split
  · rename_i hpos
    have hlt := UInt64.lt_iff_toNat_lt.mp hpos
    have hne : (memInfo.ullTotalPageFile.toNat : ℚ) ≠ 0 := by
      exact_mod_cast (Nat.lt_of_lt_of_le hlt h).ne'
    exact divide_eq_percent _ hne
  · rename_i hpos
    simp [toNat_eq_zero_of_not_pos hpos]

/-- An amount below 2^63 is a `long long`, a larger one becomes negative. -/
theorem toLongLong_cases (u : UInt64) :
    (u.toNat < 2 ^ 63 ∧ toLongLong u = u.toNat) ∨ (2 ^ 63 ≤ u.toNat ∧ toLongLong u < 0) := by
  have hlt := u.toNat_lt
  unfold toLongLong
  split
  · exact .inl ⟨by omega, rfl⟩
  · exact .inr ⟨by omega, by omega⟩

theorem linux_getRAMLoad {memInfo : Linux.Sysinfo}
    (h : memInfo.freeram.toNat + memInfo.bufferram.toNat + memInfo.sharedram.toNat
      ≤ memInfo.totalram.toNat) :
    Linux.getRAMLoad memInfo
      = some (if memInfo.totalram.toNat < 2 ^ 63 then
          load memInfo.totalram.toNat
            (memInfo.freeram.toNat + memInfo.bufferram.toNat + memInfo.sharedram.toNat)
        else 0) := by
  have hfree : (memInfo.freeram + memInfo.bufferram + memInfo.sharedram).toNat
      = memInfo.freeram.toNat + memInfo.bufferram.toNat + memInfo.sharedram.toNat := by
    have hlt := memInfo.totalram.toNat_lt
    rw [UInt64.toNat_add, UInt64.toNat_add]
    omega
  unfold Linux.getRAMLoad
  dsimp only
  obtain ⟨hsmall, htotal⟩ | ⟨hlarge, hneg⟩ := toLongLong_cases memInfo.totalram
  · obtain ⟨-, hfreeLong⟩ | ⟨hbad, -⟩ :=
      toLongLong_cases (memInfo.freeram + memInfo.bufferram + memInfo.sharedram)
    · rw [htotal, hfreeLong, hfree, if_pos hsmall]
      by_cases hzero : memInfo.totalram.toNat = 0
      · simp [load, hzero]
      · have hne : ((memInfo.totalram.toNat : Int) : ℚ) ≠ 0 := by exact_mod_cast hzero
        rw [if_pos (by omega), signed, if_pos (by unfold longLongMin longLongMax; omega), Option.bind_some,
          divide_eq_percent _ hne, load]
        push_cast
        rfl
    · omega
  · rw [if_neg (by omega), if_neg (by omega)]

/-- The free share, of an amount that is a `long long`. -/
theorem linux_getSwapLoad {memInfo : Linux.Sysinfo}
    (h : memInfo.freeswap.toNat ≤ memInfo.totalswap.toNat) :
    Linux.getSwapLoad memInfo
      = some (if memInfo.freeswap.toNat < 2 ^ 63 then
          percent (memInfo.freeswap.toNat : ℚ) memInfo.totalswap.toNat
        else 0) := by
  unfold Linux.getSwapLoad
  dsimp only
  obtain ⟨hsmall, hfree⟩ | ⟨hlarge, hneg⟩ := toLongLong_cases memInfo.freeswap
  · rw [hfree, if_pos hsmall]
    by_cases hzero : memInfo.freeswap.toNat = 0
    · simp [hzero]
    · have hne : (memInfo.totalswap.toNat : ℚ) ≠ 0 := by
        exact_mod_cast (Nat.lt_of_lt_of_le (Nat.pos_of_ne_zero hzero) h).ne'
      rw [if_pos (by omega), divide_eq_percent _ hne]
      push_cast
      rfl
  · rw [if_neg (by omega), if_neg (by omega)]

theorem apple_getRAMLoad (vmusage : Apple.XswUsage) :
    Apple.getRAMLoad (some vmusage)
      = some (percent (vmusage.xsuUsed.toNat : ℚ) vmusage.xsuTotal.toNat) :=
  guarded_share vmusage.xsuUsed vmusage.xsuTotal

theorem apple_getSwapLoad (vmusage : Apple.XswUsage) :
    Apple.getSwapLoad (some vmusage)
      = some (percent (vmusage.xsuAvail.toNat : ℚ) vmusage.xsuTotal.toNat) :=
  guarded_share vmusage.xsuAvail vmusage.xsuTotal

/-! ## When a branch returns the used share -/

/-- A load that is 0 for totals from 2^63 on is right there if all is free. -/
theorem capped_load_eq_load_iff (total free : Nat) :
    (if total < 2 ^ 63 then load total free else 0) = load total free ↔
      total < 2 ^ 63 ∨ free = total := by
  by_cases hsmall : total < 2 ^ 63
  · rw [if_pos hsmall]
    exact iff_of_true rfl (.inl hsmall)
  · rw [if_neg hsmall, eq_comm, load_eq_zero_iff (by omega)]
    exact (or_iff_right hsmall).symm

/-- A free share that is 0 for amounts from 2^63 on is right if half is free,
or if so much is free and it is all. -/
theorem capped_free_share_eq_load_iff {total free : Nat} (h : free ≤ total) (htotal : total < 2 ^ 64) :
    (if free < 2 ^ 63 then percent (free : ℚ) total else 0) = load total free ↔
      2 * free = total ∨ (2 ^ 63 ≤ free ∧ free = total) := by
  by_cases hsmall : free < 2 ^ 63
  · rw [if_pos hsmall, percent_free_eq_load_iff h]
    exact (or_iff_left fun hlarge => absurd hsmall (by omega)).symm
  · rw [if_neg hsmall, eq_comm, load_eq_zero_iff (by omega)]
    constructor
    · exact fun heq => .inr ⟨by omega, heq⟩
    · rintro (hhalf | ⟨-, heq⟩)
      · omega
      · exact heq

/-- Every branch returns the used share exactly on the readings of
`ShowsUsed`. -/
theorem getLoad_eq_iff (r : MemoryReading) (kind : MemoryKind) :
    r.info.getLoad kind = some (load (r.info.total kind) (r.info.free kind)) ↔
      ShowsUsed r.info kind := by
  obtain ⟨info, hle, hused⟩ := r
  have hfree := hle kind
  cases info with
  | windows memInfo =>
      cases kind with
      | ram => exact iff_of_true (windows_getRAMLoad hfree) trivial
      | swap =>
          rw [MemoryInfo.getLoad, windows_getSwapLoad hfree, Option.some_inj]
          exact percent_free_eq_load_iff hfree
  | linux memInfo =>
      cases kind with
      | ram =>
          rw [MemoryInfo.getLoad, linux_getRAMLoad hfree, Option.some_inj]
          exact capped_load_eq_load_iff _ _
      | swap =>
          rw [MemoryInfo.getLoad, linux_getSwapLoad hfree, Option.some_inj]
          refine (capped_free_share_eq_load_iff hfree memInfo.totalswap.toNat_lt).trans ?_
          rw [ShowsUsed, ← UInt64.toNat_inj]
          rfl
  | apple totalRAM freeRAM vmusage =>
      cases kind with
      | ram =>
          rw [MemoryInfo.getLoad, apple_getRAMLoad, Option.some_inj]
          have hpart : vmusage.xsuUsed.toNat ≤ vmusage.xsuTotal.toNat := Nat.le.intro hused
          refine (percent_eq_load_iff hpart hfree).trans ?_
          simp only [ShowsUsed, ← UInt64.toNat_inj]
          rfl
      | swap =>
          rw [MemoryInfo.getLoad, apple_getSwapLoad, Option.some_inj]
          exact percent_free_eq_load_iff hfree

/-- Two calls, of either function and on any platform, mean the same thing if
and only if both readings are among those of `ShowsUsed`. -/
theorem oneMeaning_iff (r r' : MemoryReading) (kind kind' : MemoryKind) :
    OneMeaning r r' kind kind' ↔ ShowsUsed r.info kind ∧ ShowsUsed r'.info kind' := by
  rw [← getLoad_eq_iff, ← getLoad_eq_iff]
  constructor
  · exact fun h => ⟨h.value, h.value'⟩
  · rintro ⟨hvalue, hvalue'⟩
    refine ⟨hvalue, hvalue', ?_, ?_, ?_⟩
    · intro x hx
      obtain rfl := Option.some.inj (hvalue.symm.trans hx)
      exact ⟨load_nonneg (r.free_le kind), load_le_hundred _ _⟩
    · intro htotal hfree x hx y hy
      obtain rfl := Option.some.inj (hvalue.symm.trans hx)
      obtain rfl := Option.some.inj (hvalue'.symm.trans hy)
      rw [htotal]
      exact load_antitone _ hfree
    · intro htotal hfree
      rw [hvalue, hvalue', htotal, hfree]

/-- A node on Windows with 100 bytes of either kind, all of them free. -/
def unusedMemory : MemoryReading where
  info := .windows ⟨100, 100, 100, 100⟩
  free_le := by
    intro kind
    cases kind <;> exact Nat.le_refl 100
  used := trivial

/-- Its RAM load is 0 and its swap load 100, on equal amounts. -/
theorem unused_swap_fully_loaded :
    unusedMemory.info.getLoad .ram = some 0 ∧ unusedMemory.info.getLoad .swap = some 100 ∧
      ¬ OneMeaning unusedMemory unusedMemory .ram .swap := by
  have hram : unusedMemory.info.getLoad .ram = some 0 := by decide +kernel
  have hswap : unusedMemory.info.getLoad .swap = some 100 := by decide +kernel
  refine ⟨hram, hswap, fun h => ?_⟩
  have hagree := h.agree rfl rfl
  rw [hram, hswap] at hagree
  exact absurd hagree (by decide +kernel)

end PacketDistribution.Node
