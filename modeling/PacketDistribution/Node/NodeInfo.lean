/-
PacketDistribution.Node.NodeInfo — the loads of a node as `node-info.cpp`
computes them, one definition for each platform branch.

A branch is a function of what it reads from the operating system. A
`double` that is computed from integers is the exact rational; a division by
zero, a signed overflow and the use of an object `sscanf` did not set are
`none`.

The conversion of the 64-bit disk sizes rounds (`toDouble`), the free-space
queries of the mount scan are a parameter.

The head of `getRAMLoad` is inside its `#ifdef _WIN32`: for Linux and macOS the
body stands outside of any function and does not compile. It is read as the
branch it is meant to be.
-/
import Mathlib.Data.Rat.Defs
import PacketDistribution.Lib.Double
import PacketDistribution.Lib.Stdio

namespace PacketDistribution.Node

open PacketDistribution.Lib

/-! ## Arithmetic -/

/-- `a / b` on `double`. -/
def divide (a b : ℚ) : Option ℚ :=
  if b = 0 then none else some (a / b)

/-- A result of `long long` arithmetic. -/
def signed (v : Int) : Option Int :=
  if longLongMin ≤ v ∧ v ≤ longLongMax then some v else none

/-- `a + b + …` on `long long`, from the left. -/
def signedSum (a : Int) (bs : List Int) : Option Int :=
  bs.foldlM (fun sum b => signed (sum + b)) a

/-- The conversion of an `unsigned long` to `long long`. -/
def toLongLong (u : UInt64) : Int :=
  if u.toNat < 9223372036854775808 then u.toNat else u.toNat - 18446744073709551616

/-- An element of `disks_load`. -/
structure DiskInfo where
  name : StdString
  availableBytes : ℚ
  totalBytes : ℚ
  deriving DecidableEq

/-! ## Windows -/

namespace Windows

/-- `FILETIME`: a 64-bit counter in two words. -/
structure FileTime where
  dwLowDateTime : UInt32
  dwHighDateTime : UInt32
  deriving DecidableEq

/-- The words joined to the `QuadPart` of a `ULARGE_INTEGER`. -/
def FileTime.quadPart (t : FileTime) : UInt64 :=
  t.dwLowDateTime.toUInt64 ||| (t.dwHighDateTime.toUInt64 <<< 32)

/-- What `GetSystemTimes` returns. The kernel time includes the idle time. -/
structure SystemTimes where
  idleTime : FileTime
  kernelTime : FileTime
  userTime : FileTime
  deriving DecidableEq

/-- `getCPULoad`, on two readings 100 ms apart. -/
def getCPULoad (last now : SystemTimes) : Option ℚ :=
  let sysDiff := now.kernelTime.quadPart - last.kernelTime.quadPart
  let userDiff := now.userTime.quadPart - last.userTime.quadPart
  let total := sysDiff + userDiff
  if 0 < total then divide (userDiff.toNat * 100) total.toNat else some 0

/-- The fields of `MEMORYSTATUSEX` that are read. -/
structure MemoryStatus where
  ullTotalPhys : UInt64
  ullAvailPhys : UInt64
  ullTotalPageFile : UInt64
  ullAvailPageFile : UInt64
  deriving DecidableEq

/-- `getRAMLoad`. -/
def getRAMLoad (memInfo : MemoryStatus) : Option ℚ :=
  let totalPhysMem := memInfo.ullTotalPhys
  let availPhysMem := memInfo.ullAvailPhys
  if 0 < totalPhysMem then
    divide (100 * (totalPhysMem - availPhysMem).toNat) totalPhysMem.toNat
  else some 0

/-- `getSwapLoad`. -/
def getSwapLoad (memInfo : MemoryStatus) : Option ℚ :=
  let availPageFile := memInfo.ullAvailPageFile
  if 0 < availPageFile then divide (100 * availPageFile.toNat) memInfo.ullTotalPageFile.toNat
  else some 0

/-- What a successful `GetDiskFreeSpaceExA` returns. -/
structure FreeSpace where
  freeBytesAvailable : UInt64
  totalNumberOfBytes : UInt64
  totalNumberOfFreeBytes : UInt64
  deriving DecidableEq

/-- The path of a drive's root. -/
def deviceName (driveLetter : UInt8) : StdString :=
  [Char.ofNat driveLetter.toNat, ':', '\\']

/-- The body of the drive loop for a set bit. -/
def addDrive (getDiskFreeSpaceExA : StdString → Option FreeSpace) (driveLetter : UInt8)
    (diskInfoList : List DiskInfo) : List DiskInfo :=
  match getDiskFreeSpaceExA (deviceName driveLetter) with
  | some space =>
      let availableMemory := toDouble space.freeBytesAvailable.toNat
      let totalMemory := toDouble space.totalNumberOfBytes.toNat
      diskInfoList ++ [⟨deviceName driveLetter, availableMemory, totalMemory⟩]
  | none => diskInfoList

/-- `while (drives)`. -/
def driveLoop (getDiskFreeSpaceExA : StdString → Option FreeSpace) (drives : UInt32)
    (driveLetter : UInt8) (diskInfoList : List DiskInfo) : List DiskInfo :=
  if _h : drives = 0 then diskInfoList
  else
    driveLoop getDiskFreeSpaceExA (drives >>> 1) (driveLetter + 1)
      (if drives &&& 1 ≠ 0 then addDrive getDiskFreeSpaceExA driveLetter diskInfoList
      else diskInfoList)
termination_by drives.toNat
decreasing_by
  have hpos : drives.toNat ≠ 0 := fun h => _h (UInt32.toNat_inj.mp h)
  rw [UInt32.toNat_shiftRight, Nat.shiftRight_eq_div_pow]
  exact Nat.div_lt_self (Nat.pos_of_ne_zero hpos) (by decide)

/-- `getDisksLoad`, where `GetLogicalDrives` returns `drives`. -/
def getDisksLoad (drives : UInt32) (getDiskFreeSpaceExA : StdString → Option FreeSpace) :
    List DiskInfo :=
  driveLoop getDiskFreeSpaceExA drives 65 []

end Windows

/-! ## Mount tables -/

/-- One line of a mount table, as it is in the buffer: its second field is a
mount point if its first field is accepted. -/
def addMount (accepts : StdString → Bool) (getAvailableDiskMemory getTotalDiskMemory : StdString → ℚ)
    (diskInfoList : List DiskInfo) (line : StdString) : List DiskInfo :=
  match sscanf [.string 255, .space, .string 255] (cString line) with
  | some [.text device, .text mountPoint] =>
      if accepts device then
        diskInfoList ++
          [⟨mountPoint, getAvailableDiskMemory mountPoint, getTotalDiskMemory mountPoint⟩]
      else diskInfoList
  | _ => diskInfoList

/-- `while (fgets(line, sizeof(line), mountsFile))`. -/
def mountLoop (accepts : StdString → Bool) (getAvailableDiskMemory getTotalDiskMemory : StdString → ℚ)
    (mountsFile : StdString) (diskInfoList : List DiskInfo) : List DiskInfo :=
  match _h : fgets 512 mountsFile with
  | none => diskInfoList
  | some (line, rest) =>
      mountLoop accepts getAvailableDiskMemory getTotalDiskMemory rest
        (addMount accepts getAvailableDiskMemory getTotalDiskMemory diskInfoList line)
termination_by mountsFile.length
decreasing_by exact fgets_length_lt (by decide) _h

/-! ## Linux -/

namespace Linux

/-- `"cpu %lld %lld %lld %lld %lld %lld %lld %lld %lld %lld"`. -/
def statFormat : List Directive :=
  [.char 'c', .char 'p', .char 'u', .space, .lld, .space, .lld, .space, .lld, .space, .lld, .space,
    .lld, .space, .lld, .space, .lld, .space, .lld, .space, .lld, .space, .lld]

/-- `getCPULoad`. `statFile` is what `/proc/stat` contains, if it can be
opened. `guest` and `guest_nice` are converted and not used. -/
def getCPULoad (statFile : Option StdString) : Option ℚ :=
  let line := (statFile.getD []).takeWhile (· ≠ '\n')
  match sscanf statFormat (cString line) with
  | some (.number user :: .number nice :: .number system :: .number idle :: .number iowait ::
      .number irq :: .number softirq :: .number steal :: _) => do
      let idleTime ← signed (idle + iowait)
      let totalTime ← signedSum user [nice, system, idleTime, irq, softirq, steal]
      if 0 < totalTime then divide (100 * idleTime) totalTime else some 0
  | _ => none

/-- The fields of `struct sysinfo` that are read. -/
structure Sysinfo where
  totalram : UInt64
  freeram : UInt64
  sharedram : UInt64
  bufferram : UInt64
  totalswap : UInt64
  freeswap : UInt64
  deriving DecidableEq

/-- `getRAMLoad`. -/
def getRAMLoad (memInfo : Sysinfo) : Option ℚ :=
  let totalPhysMem := toLongLong memInfo.totalram
  let freePhysMem := toLongLong (memInfo.freeram + memInfo.bufferram + memInfo.sharedram)
  if 0 < totalPhysMem then
    (signed (totalPhysMem - freePhysMem)).bind fun used => divide (100 * used) totalPhysMem
  else some 0

/-- `getSwapLoad`. -/
def getSwapLoad (memInfo : Sysinfo) : Option ℚ :=
  let freeSwap := toLongLong memInfo.freeswap
  if 0 < freeSwap then divide (100 * freeSwap) memInfo.totalswap.toNat else some 0

/-- `strstr(device, "/dev/")`. -/
def isDevice (device : StdString) : Bool :=
  strstr device ['/', 'd', 'e', 'v', '/']

/-- `getDisksLoad`. `mountsFile` is what `/proc/mounts` contains, if it can be
opened. -/
def getDisksLoad (getAvailableDiskMemory getTotalDiskMemory : StdString → ℚ)
    (mountsFile : Option StdString) : List DiskInfo :=
  match mountsFile with
  | some content => mountLoop isDevice getAvailableDiskMemory getTotalDiskMemory content []
  | none => []

end Linux

/-! ## macOS -/

namespace Apple

/-- The `cpu_ticks` of `host_cpu_load_info_data_t`. -/
structure HostCpuLoadInfo where
  user : UInt32
  system : UInt32
  idle : UInt32
  nice : UInt32
  deriving DecidableEq

/-- `getCPULoad`. The ticks are added as 32-bit numbers. -/
def getCPULoad (hostStatistics : Option HostCpuLoadInfo) : Option ℚ :=
  match hostStatistics with
  | some ticks =>
      let totalTicks := (ticks.user + ticks.system + ticks.nice + ticks.idle).toUInt64
      let idleTicks := ticks.idle.toUInt64
      if 0 < totalTicks then divide (100 * idleTicks.toNat) totalTicks.toNat else some 0
  | none => some 0

/-- `struct xsw_usage`. -/
structure XswUsage where
  xsuTotal : UInt64
  xsuAvail : UInt64
  xsuUsed : UInt64
  deriving DecidableEq

/-- `getRAMLoad`: what it reads is `vm.swapusage`. -/
def getRAMLoad (swapusage : Option XswUsage) : Option ℚ :=
  match swapusage with
  | some vmusage =>
      let totalSwap := vmusage.xsuTotal
      let usedSwap := vmusage.xsuUsed
      if 0 < totalSwap then divide (100 * usedSwap.toNat) totalSwap.toNat else some 0
  | none => some 0

/-- `getSwapLoad`. -/
def getSwapLoad (swapusage : Option XswUsage) : Option ℚ :=
  match swapusage with
  | some vmusage =>
      let freeSwap := vmusage.xsuAvail
      let totalSwap := vmusage.xsuTotal
      if 0 < totalSwap then divide (100 * freeSwap.toNat) totalSwap.toNat else some 0
  | none => some 0

/-- `getDisksLoad`. `mountsFile` is what `/etc/fstab` contains, if it can be
opened; every first field is accepted. -/
def getDisksLoad (getAvailableDiskMemory getTotalDiskMemory : StdString → ℚ)
    (mountsFile : Option StdString) : List DiskInfo :=
  match mountsFile with
  | some content => mountLoop (fun _ => true) getAvailableDiskMemory getTotalDiskMemory content []
  | none => []

end Apple

end PacketDistribution.Node
