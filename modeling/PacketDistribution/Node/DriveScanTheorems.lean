/-
PacketDistribution.Node.DriveScanTheorems — what the scan of the logical
drives reports.

The mask, the letter and the list advance together. After `k` rounds the mask
is shifted by `k` and the letter is the one of bit `k`, whatever was skipped.

* `driveLoop_eq`: the loop from any mask, letter and list.
* `driveScan_reportsDrives`: one entry for each drive that answers.
-/
import Mathlib.Data.List.Nodup
import PacketDistribution.Node.NodeInfo

namespace PacketDistribution.Node.Windows

open PacketDistribution.Lib

/-! ## The property -/

/-- The name of the drive of a bit: `A:\` for bit 0. -/
def driveName (bit : Nat) : StdString :=
  [Char.ofNat ('A'.toNat + bit), ':', '\\']

/-- The entry of a drive that answers. -/
def driveEntry (bit : Nat) (space : FreeSpace) : DiskInfo where
  name := driveName bit
  availableBytes := toDouble space.freeBytesAvailable.toNat
  totalBytes := toDouble space.totalNumberOfBytes.toNat

/-- The entry of a bit, if it is set and its drive answers. -/
def entryOfBit (drives : UInt32) (query : StdString → Option FreeSpace) (bit : Nat) :
    Option DiskInfo :=
  if drives.toNat.testBit bit then (query (driveName bit)).map (driveEntry bit) else none

/-- The number is the size as a `double`: the size itself up to 2^53, and
otherwise an integer with 53 significant bits of which none is nearer. -/
structure CarriesSize (x : ℚ) (size : Nat) : Prop where
  exact_of_le : size ≤ 2 ^ 53 → x = size
  nearest : ∃ d : Nat, x = d ∧ IsDouble d ∧
    ∀ y, IsDouble y → ((d : Int) - size).natAbs ≤ ((y : Int) - size).natAbs

/-- The list has, in ascending order of the bits, one entry for each set bit
whose drive answers, and no other. No name is repeated, and every entry has
its own drive's name and sizes. -/
structure ReportsDrives (drives : UInt32) (query : StdString → Option FreeSpace)
    (list : List DiskInfo) : Prop where
  entries : list = (List.range 32).filterMap (entryOfBit drives query)
  distinct : (list.map DiskInfo.name).Nodup
  own : ∀ entry ∈ list, ∃ bit space, drives.toNat.testBit bit = true ∧
    query (driveName bit) = some space ∧ entry.name = driveName bit ∧
    CarriesSize entry.availableBytes space.freeBytesAvailable.toNat ∧
    CarriesSize entry.totalBytes space.totalNumberOfBytes.toNat

/-! ## The loop -/

variable {query : StdString → Option FreeSpace}

/-- The entry of a drive under the letter the loop has for it. -/
def entryOf (query : StdString → Option FreeSpace) (driveLetter : UInt8) : Option DiskInfo :=
  (query (deviceName driveLetter)).map fun space =>
    ⟨deviceName driveLetter, toDouble space.freeBytesAvailable.toNat,
      toDouble space.totalNumberOfBytes.toNat⟩

theorem addDrive_eq (driveLetter : UInt8) (list : List DiskInfo) :
    addDrive query driveLetter list = list ++ (entryOf query driveLetter).toList := by
  unfold addDrive entryOf
  cases query (deviceName driveLetter) with
  | none => simp
  | some space => rfl

/-- The mask after a round. -/
theorem toNat_shiftRight_one (drives : UInt32) : (drives >>> 1).toNat = drives.toNat / 2 := by
  rw [UInt32.toNat_shiftRight, Nat.shiftRight_eq_div_pow]
  rfl

theorem and_one_ne_zero_iff (drives : UInt32) :
    drives &&& 1 ≠ 0 ↔ drives.toNat.testBit 0 = true := by
  rw [ne_eq, ← UInt32.toNat_inj, UInt32.toNat_and, Nat.testBit_zero]
  show ¬ drives.toNat &&& 1 = 0 ↔ _
  rw [Nat.and_one_is_mod, decide_eq_true_eq]
  omega

/-- The letter of a bit of the shifted mask is that of the next bit. -/
theorem driveLetter_succ (driveLetter : UInt8) (bit : Nat) :
    driveLetter + 1 + UInt8.ofNat bit = driveLetter + UInt8.ofNat (bit + 1) := by
  rw [UInt8.add_assoc, Nat.add_comm bit 1, UInt8.ofNat_add]
  rfl

/-- From any mask of `n` bits, letter and list, the loop adds an entry for
each set bit, under the letter that is as many letters on. -/
theorem driveLoop_eq {n : Nat} {drives : UInt32} (h : drives.toNat < 2 ^ n) (driveLetter : UInt8)
    (list : List DiskInfo) :
    driveLoop query drives driveLetter list
      = list ++ (List.range n).filterMap fun bit =>
          if drives.toNat.testBit bit then entryOf query (driveLetter + UInt8.ofNat bit) else none := by
  induction n generalizing drives driveLetter list with
  | zero =>
      have hzero : drives = 0 := UInt32.toNat_inj.mp (by simpa using h)
      rw [driveLoop, dif_pos hzero]
      simp
  | succ n ih =>
      rw [driveLoop]
      by_cases hzero : drives = 0
      · rw [dif_pos hzero, hzero]
        simp
      · have hshift : (drives >>> 1).toNat < 2 ^ n := by
          rw [toNat_shiftRight_one]
          rw [Nat.pow_succ] at h
          omega
        rw [dif_neg hzero, ih hshift, List.range_succ_eq_map, List.filterMap_cons, List.filterMap_map]
        have hlater : (fun bit => if (drives >>> 1).toNat.testBit bit then
              entryOf query (driveLetter + 1 + UInt8.ofNat bit) else none)
            = (fun bit => if drives.toNat.testBit bit then
              entryOf query (driveLetter + UInt8.ofNat bit) else none) ∘ Nat.succ := by
          funext bit
          rw [Function.comp_apply, Nat.succ_eq_add_one, Nat.testBit_succ, toNat_shiftRight_one,
            driveLetter_succ]
        rw [hlater, show driveLetter + UInt8.ofNat 0 = driveLetter by simp]
        by_cases hbit : drives.toNat.testBit 0 = true
        · rw [if_pos ((and_one_ne_zero_iff drives).mpr hbit), if_pos hbit, addDrive_eq, List.append_assoc]
          cases entryOf query driveLetter <;> rfl
        · rw [if_neg fun hand => hbit ((and_one_ne_zero_iff drives).mp hand), if_neg hbit]

/-! ## The drives -/

/-- The letter of a bit of the mask is a character of its own. -/
theorem toNat_driveLetter {bit : Nat} (h : bit < 32) :
    (Char.ofNat ('A'.toNat + bit)).toNat = 65 + bit := by
  have hvalid : ('A'.toNat + bit).isValidChar := by
    left
    show 65 + bit < 55296
    omega
  rw [Char.ofNat, dif_pos hvalid]
  rfl

theorem driveName_injective {bit bit' : Nat} (h : bit < 32) (h' : bit' < 32)
    (hname : driveName bit = driveName bit') : bit = bit' := by
  have hletter := congrArg Char.toNat (List.cons.inj hname).1
  rw [toNat_driveLetter h, toNat_driveLetter h'] at hletter
  omega

/-- Counted from `A`, the loop's letter for a bit names the bit's drive. -/
theorem entryOf_driveLetter {bit : Nat} (h : bit < 32) :
    entryOf query (65 + UInt8.ofNat bit) = (query (driveName bit)).map (driveEntry bit) := by
  have hletter : (65 + UInt8.ofNat bit).toNat = 65 + bit := by
    rw [UInt8.toNat_add, UInt8.toNat_ofNat']
    show (65 + bit % 256) % 256 = 65 + bit
    omega
  have hname : deviceName (65 + UInt8.ofNat bit) = driveName bit := by
    rw [deviceName, hletter]
    rfl
  rw [entryOf, hname]
  rfl

theorem carriesSize_toDouble (size : Nat) : CarriesSize (toDouble size) size where
  exact_of_le := fun hsize => congrArg Nat.cast (toDouble_of_le hsize)
  nearest := ⟨toDouble size, rfl, isDouble_toDouble size, fun _ hy => toDouble_nearest size hy⟩

/-- An entry is that of a set bit whose drive answers. -/
theorem entryOfBit_eq_some {drives : UInt32} {bit : Nat} {entry : DiskInfo}
    (h : entryOfBit drives query bit = some entry) :
    drives.toNat.testBit bit = true ∧
      ∃ space, query (driveName bit) = some space ∧ entry = driveEntry bit space := by
  unfold entryOfBit at h
  split at h
  · rename_i hbit
    obtain ⟨space, hquery, rfl⟩ := Option.map_eq_some_iff.mp h
    exact ⟨hbit, space, hquery, rfl⟩
  · cases h

/-- For every mask and every answer of the drives, the scan reports the drives
that answer. -/
theorem driveScan_reportsDrives (drives : UInt32) (query : StdString → Option FreeSpace) :
    ReportsDrives drives query (getDisksLoad drives query) := by
  have hentries : getDisksLoad drives query
      = (List.range 32).filterMap (entryOfBit drives query) := by
    rw [getDisksLoad, driveLoop_eq drives.toNat_lt, List.nil_append]
    refine List.filterMap_congr fun bit hbit => ?_
    rw [entryOfBit, entryOf_driveLetter (List.mem_range.mp hbit)]
  refine ⟨hentries, ?_, ?_⟩
  · rw [hentries, List.Nodup, List.pairwise_map, List.pairwise_filterMap]
    refine List.pairwise_lt_range.imp_of_mem fun {bit bit'} hbit hbit' hlt entry hentry entry' hentry' => ?_
    obtain ⟨-, space, -, rfl⟩ := entryOfBit_eq_some hentry
    obtain ⟨-, space', -, rfl⟩ := entryOfBit_eq_some hentry'
    intro hname
    have heq := driveName_injective (List.mem_range.mp hbit) (List.mem_range.mp hbit') hname
    omega
  · intro entry hentry
    rw [hentries] at hentry
    obtain ⟨bit, -, hsome⟩ := List.mem_filterMap.mp hentry
    obtain ⟨hbit, space, hquery, rfl⟩ := entryOfBit_eq_some hsome
    exact ⟨bit, space, hbit, hquery, rfl, carriesSize_toDouble _, carriesSize_toDouble _⟩

end PacketDistribution.Node.Windows
