/-
PacketDistribution.Node.Counts — the counts of a node as `node-info.cpp`
computes them on Linux: processes, sockets and open files.

`getProcessCount` reads `/proc` through an `std::ifstream`, word by word. The
two others list directories with `readdir`; what `opendir` and `lstat` answer
is a parameter. A counter is an `int` that is never negative, and a count
beyond `INT_MAX` is a signed overflow, `none`.
-/
import PacketDistribution.Lib.Stdio

namespace PacketDistribution.Node.Linux

open PacketDistribution.Lib

/-- A count as an `int`. -/
def asInt (n : Nat) : Option Nat := if (n : Int) ≤ intMax then some n else none

/-! ## `std::ifstream` -/

/-- What is at a path that is opened for reading. -/
inductive Source where
  | missing
  | directory
  | file (content : StdString)
  deriving DecidableEq

/-- An input stream: `good()`, and the characters it has not read yet. -/
structure Ifstream where
  good : Bool
  rest : StdString
  deriving DecidableEq

/-- The constructor. A directory can be opened, but nothing can be read from
it. -/
def Ifstream.ofSource : Source → Ifstream
  | .missing => ⟨false, []⟩
  | .directory => ⟨true, []⟩
  | .file content => ⟨true, content⟩

/-- `>>` into an empty string. The stream is good afterwards if the word ends
before the input does. -/
def Ifstream.extract (s : Ifstream) : StdString × Ifstream :=
  if s.good then
    let field := s.rest.dropWhile isSpace
    let rest := field.dropWhile fun c => !isSpace c
    (field.takeWhile fun c => !isSpace c, ⟨!rest.isEmpty, rest⟩)
  else ([], s)

/-- `isdigit(s[0])`, where `s[0]` of an empty string is a null character. -/
def startsWithDigit (s : StdString) : Bool := (s.headD '\x00').isDigit

/-- What a stream can still deliver. -/
def Ifstream.left (s : Ifstream) : Nat := if s.good then s.rest.length + 1 else 0

theorem Ifstream.left_extract {s : Ifstream} (h : s.good = true) : s.extract.2.left < s.left := by
  have hfield := (s.rest.dropWhile_sublist isSpace).length_le
  simp only [Ifstream.extract, Ifstream.left, h, if_true]
  cases hword : s.rest.dropWhile isSpace with
  | nil => simp
  | cons c field =>
      have hc : isSpace c = false := by
        have hhead := List.head?_dropWhile_not isSpace s.rest
        rw [hword] at hhead
        simpa using hhead
      have hrest := (field.dropWhile_sublist fun c => !isSpace c).length_le
      rw [hword, List.length_cons] at hfield
      rw [List.dropWhile_cons_of_pos (by simp [hc])]
      split <;> omega

/-! ## Processes -/

/-- `while (procDir.good())`. -/
def processLoop (procDir : Ifstream) (processCount : Nat) : Option Nat :=
  if _h : procDir.good = true then
    let filename := procDir.extract.1
    (if startsWithDigit filename then asInt (processCount + 1) else some processCount).bind
      fun count => processLoop procDir.extract.2 count
  else some processCount
termination_by procDir.left
decreasing_by exact Ifstream.left_extract _h

/-- `getProcessCount`, where `/proc` is what `proc` says. -/
def getProcessCount (proc : Source) : Option Nat :=
  processLoop (.ofSource proc) 0

/-! ## Sockets and open files -/

/-- The file types of `st_mode`, as far as they are told apart. -/
inductive FileType where
  | socket
  | symbolicLink
  | other
  deriving DecidableEq

/-- The answers of the system: the names `readdir` returns for a directory
that can be opened, and the type `lstat` returns, which does not follow a
link. -/
structure System where
  opendir : StdString → Option (List StdString)
  lstat : StdString → Option FileType

/-- `atoi`. A value that is no `int` is undefined. -/
def atoi (s : StdString) : Option Int :=
  match stoi s with
  | .ok v => some v
  | .error .invalidArgument => some 0
  | .error .outOfRange => none

/-- `"/proc/%d/fd"`. -/
def procPath (pid : Int) : StdString :=
  ['/', 'p', 'r', 'o', 'c', '/'] ++ toStdString pid ++ ['/', 'f', 'd']

/-- `"/proc/%d/fd/%d"`. -/
def fdPath (pid fd : Int) : StdString :=
  procPath pid ++ ['/'] ++ toStdString fd

/-- One entry of the inner loop. -/
def addDescriptor (os : System) (pid : Int) (openSockets : Nat) (name : StdString) : Option Nat :=
  if startsWithDigit name then
    (atoi name).bind fun fd =>
      if os.lstat (fdPath pid fd) = some .socket then asInt (openSockets + 1) else some openSockets
  else some openSockets

/-- One entry of the outer loop. -/
def addProcess (os : System) (openSockets : Nat) (name : StdString) : Option Nat :=
  if startsWithDigit name then
    (atoi name).bind fun pid =>
      match os.opendir (procPath pid) with
      | some names => names.foldlM (addDescriptor os pid) openSockets
      | none => some openSockets
  else some openSockets

/-- `getOpenSocketCount`. -/
def getOpenSocketCount (os : System) : Option Nat :=
  match os.opendir ['/', 'p', 'r', 'o', 'c'] with
  | some names => names.foldlM (addProcess os) 0
  | none => some 0

/-- `getOpenFileHandleCount`. -/
def getOpenFileHandleCount (os : System) : Option Int :=
  match os.opendir ['/', 'p', 'r', 'o', 'c', '/', 's', 'e', 'l', 'f', '/', 'f', 'd'] with
  | some names =>
      (names.foldlM (fun handleCount name =>
        if name ≠ ['.'] ∧ name ≠ ['.', '.'] then asInt (handleCount + 1) else some handleCount)
        0).map Int.ofNat
  | none => some (-1)

end PacketDistribution.Node.Linux
