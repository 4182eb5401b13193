/-
PacketDistribution.Lib.FileSystem — files, directories, links and devices, as
far as `std::filesystem` shows them.

A path is resolved name by name. Every name but the last has to lead to a
directory, a symbolic link is replaced by the path it holds, and a hard link
leads to the place of the file it shares. A path can lead nowhere in two
ways: something on the way is not there, or the lookup itself fails.

Rights and limits are part of the state (`Setting`): `refuses`, `tooLong`,
`linkMax`, `writable` and `room` are arbitrary, so every failure of a device
or of a lookup is some file system.

* `Grows.resolve`: what a path means, and that its lookup fails, stays so when
  files are written and files and directories are made. Only a path that led
  nowhere can come to lead somewhere.
* `SameNames.resolve`: writing and making files changes the meaning of no
  path.
* `createDirectories_spec`: what `create_directories` does, and that doing it
  again does nothing (`createDirectories_self`).
-/
import Mathlib.Logic.Function.Basic
import PacketDistribution.Lib.Numeral

namespace PacketDistribution.Lib

/-- A place in the tree: the names on the way from the root. -/
abbrev Location := List StdString

/-! ## Paths -/

/-- A parsed `std::filesystem::path`. -/
structure Path where
  absolute : Bool
  parts : List StdString
  deriving DecidableEq

namespace Path

/-- Parse a pathname. Repeated separators count once; a separator at the end
asks for a directory, as a last name `.` does. -/
def ofString (s : StdString) : Path where
  absolute := s.head? = some '/'
  parts := (s.splitOn '/').filter (· ≠ []) ++ if s.getLast? = some '/' then [['.']] else []

/-- `p / name`, for a single name. -/
def child (p : Path) (name : StdString) : Path :=
  { p with parts := p.parts ++ [name] }

/-- The path names nothing. -/
def isEmpty (p : Path) : Bool := !p.absolute && p.parts.isEmpty

/-- Where the names of a path start, if it is used in the directory `dir`. -/
def start (p : Path) (dir : Location) : Location :=
  if p.absolute then [] else dir

end Path

/-- An ordinary name leads to an entry of the directory it is looked up in. -/
def isOrdinary (name : StdString) : Bool := name ≠ ['.'] && name ≠ ['.', '.']

/-- The place a name leads to. -/
def enter (loc : Location) (name : StdString) : Location :=
  if name = ['.'] then loc else if name = ['.', '.'] then loc.dropLast else loc ++ [name]

theorem enter_ordinary {name : StdString} (h : isOrdinary name = true) (loc : Location) :
    enter loc name = loc ++ [name] := by
  simp only [isOrdinary, Bool.and_eq_true, decide_eq_true_eq] at h
  unfold enter
  rw [if_neg h.1, if_neg h.2]

/-! ## File systems -/

/-- An entry of a directory. -/
inductive Node where
  | file (bytes : List UInt8)
  | directory
  /-- a symbolic link, with the path it holds -/
  | symlink (target : Path)
  /-- one more name of the file at another place -/
  | hardLink (other : Location)
  /-- a device that keeps nothing of what is written to it, as `/dev/null` -/
  | device
  deriving DecidableEq

/-- What no operation changes: the working directory, and the rights and
limits under which the process works. -/
structure Setting where
  cwd : Location
  /-- how many symbolic links a path may lead through -/
  linkMax : Nat
  /-- looking up the name in the directory fails, for want of a right or
  because the name is too long, and not because nothing has it -/
  refuses : Location → StdString → Bool
  /-- the path as a whole is too long -/
  tooLong : Path → Bool
  /-- the process may create the entry, and write it if it is a file -/
  writable : Location → Bool
  /-- how many bytes a file there can hold, or a device there takes -/
  room : Location → Nat

/-- A file system, with the process's working directory. -/
structure FileSystem extends Setting where
  node : Location → Option Node

/-- Why a path leads nowhere. -/
inductive LookupError where
  /-- a name is missing, or not that of a directory -/
  | notFound
  /-- the lookup failed, or there were too many symbolic links -/
  | failed
  deriving DecidableEq

/-- Names followed up to the first symbolic link. -/
inductive Followed where
  | place (loc : Location)
  /-- a link in the directory `dir`, with the names behind it -/
  | link (dir : Location) (target : Path) (rest : List StdString)
  | stopped (e : LookupError)
  deriving DecidableEq

namespace FileSystem

/-- Follow names from a place. -/
def follow (fs : FileSystem) : Location → List StdString → Followed
  | loc, [] => .place loc
  | loc, name :: names =>
      if fs.node loc ≠ some .directory then .stopped .notFound
      else if fs.refuses loc name then .stopped .failed
      else
        match fs.node (enter loc name) with
        | some (.symlink target) => .link loc target names
        | some (.hardLink other) => fs.follow other names
        | _ => fs.follow (enter loc name) names

/-- Where the names led; `through` goes on behind a link. -/
def arrive (through : Location → List StdString → Except LookupError Location) :
    Followed → Except LookupError Location
  | .place loc => .ok loc
  | .stopped e => .error e
  | .link dir target rest =>
      if target.isEmpty then .error .notFound else through (target.start dir) (target.parts ++ rest)

/-- Follow names through at most so many symbolic links. -/
def walk (fs : FileSystem) : Nat → Location → List StdString → Except LookupError Location
  | 0, loc, names => arrive (fun _ _ => .error .failed) (fs.follow loc names)
  | links + 1, loc, names => arrive (fs.walk links) (fs.follow loc names)

/-- The place a path names. There may be nothing yet. -/
def resolve (fs : FileSystem) (p : Path) : Except LookupError Location :=
  if p.isEmpty then .error .notFound
  else if fs.tooLong p then .error .failed
  else fs.walk fs.linkMax (p.start fs.cwd) p.parts

/-- What a question about a place answers for a path: `false` where the path
leads nowhere, and `none`, an exception, where its lookup fails. -/
def answer (found : Except LookupError Location) (question : Location → Bool) : Option Bool :=
  match found with
  | .ok loc => some (question loc)
  | .error .notFound => some false
  | .error .failed => none

/-- `std::filesystem::exists`; `none` when it throws. -/
def pathExists (fs : FileSystem) (p : Path) : Option Bool :=
  answer (fs.resolve p) fun loc => (fs.node loc).isSome

/-- `std::filesystem::is_directory`, where it does not throw. -/
def isDirectory (fs : FileSystem) (p : Path) : Bool :=
  answer (fs.resolve p) (fun loc => fs.node loc = some .directory) = some true

/-- Make `n` the entry at a place. -/
def put (fs : FileSystem) (loc : Location) (n : Node) : FileSystem :=
  { fs with node := Function.update fs.node loc (some n) }

/-- `mkdir`, of `name` where the names before it lead. -/
def makeDirectory (fs : FileSystem) (loc : Location) (names : List StdString) (name : StdString) :
    FileSystem :=
  match fs.walk fs.linkMax loc names with
  | .error _ => fs
  | .ok dir =>
      if fs.node dir = some .directory ∧ fs.refuses dir name = false ∧
          fs.node (enter dir name) = none ∧ fs.writable (enter dir name) = true then
        fs.put (enter dir name) .directory
      else fs

/-- Create the directories along names that are missing. Where one cannot be
created nothing is found behind it either. -/
def makeDirectories (fs : FileSystem) (loc : Location) (before : List StdString) :
    List StdString → FileSystem
  | [] => fs
  | name :: names =>
      (fs.makeDirectory loc before name).makeDirectories loc (before ++ [name]) names

/-- `std::filesystem::create_directories`: `false` when it throws, with what
it has created until then. -/
def createDirectories (fs : FileSystem) (p : Path) : Bool × FileSystem :=
  match fs.pathExists p with
  | none => (false, fs)
  | some true => (fs.isDirectory p, fs)
  | some false =>
      let fs' := fs.makeDirectories (p.start fs.cwd) [] p.parts
      (fs'.isDirectory p, fs')

variable {fs fs' fs'' : FileSystem}

theorem answer_eq_true {found : Except LookupError Location} {question : Location → Bool} :
    answer found question = some true ↔ ∃ loc, found = .ok loc ∧ question loc = true := by
  unfold answer
  split <;> simp

theorem isDirectory_eq_true {p : Path} :
    fs.isDirectory p = true ↔ ∃ loc, fs.resolve p = .ok loc ∧ fs.node loc = some .directory := by
  simp [isDirectory, answer_eq_true]

/-! ## Changes -/

@[simp] theorem put_node_self (fs : FileSystem) (loc : Location) (n : Node) :
    (fs.put loc n).node loc = some n :=
  Function.update_self ..

theorem put_node_ne (fs : FileSystem) {loc loc' : Location} (n : Node) (h : loc' ≠ loc) :
    (fs.put loc n).node loc' = fs.node loc' :=
  Function.update_of_ne h ..

/-- `fs'` differs from `fs` in entries that have changed as `change` says. -/
structure Differ (change : Option Node → Option Node → Prop) (fs fs' : FileSystem) : Prop where
  setting : fs'.toSetting = fs.toSetting
  node : ∀ loc, fs'.node loc = fs.node loc ∨ change (fs.node loc) (fs'.node loc)

namespace Differ

variable {change change' : Option Node → Option Node → Prop}

theorem refl (fs : FileSystem) : Differ change fs fs :=
  ⟨rfl, fun _ => .inl rfl⟩

theorem mono (h : Differ change fs fs') (himp : ∀ a b, change a b → change' a b) :
    Differ change' fs fs' :=
  ⟨h.setting, fun loc => (h.node loc).imp_right (himp _ _)⟩

theorem trans (htrans : ∀ a b c, change a b → change b c → change a c)
    (h : Differ change fs fs') (h' : Differ change fs' fs'') : Differ change fs fs'' := by
  refine ⟨h'.setting.trans h.setting, fun loc => ?_⟩
  rcases h.node loc with heq | hchange
  · rw [← heq]
    exact h'.node loc
  · rcases h'.node loc with heq' | hchange'
    · exact .inr (heq' ▸ hchange)
    · exact .inr (htrans _ _ _ hchange hchange')

theorem put {loc : Location} {n : Node} (h : change (fs.node loc) (some n)) :
    Differ change fs (fs.put loc n) := by
  refine ⟨rfl, fun loc' => ?_⟩
  by_cases hloc : loc' = loc
  · subst hloc
    exact .inr (by rwa [put_node_self])
  · exact .inl (put_node_ne fs n hloc)

end Differ

theorem eq_of_node (hsetting : fs'.toSetting = fs.toSetting)
    (hnode : ∀ loc, fs'.node loc = fs.node loc) : fs' = fs := by
  have hnode' : fs'.node = fs.node := funext hnode
  cases fs
  cases fs'
  simp_all

/-- A directory where there was nothing. -/
def Made (old new : Option Node) : Prop := old = none ∧ new = some .directory

/-- A file, where there was one or nothing. -/
def Written (old new : Option Node) : Prop :=
  (old = none ∨ ∃ bytes, old = some (.file bytes)) ∧ ∃ bytes, new = some (.file bytes)

/-- `fs'` has directories where `fs` has nothing. -/
abbrev MoreDirectories (fs fs' : FileSystem) : Prop := Differ Made fs fs'

/-- `fs'` differs from `fs` in files only. -/
abbrev SameNames (fs fs' : FileSystem) : Prop := Differ Written fs fs'

/-- Directories have been made and files written. -/
abbrev Grows (fs fs' : FileSystem) : Prop := Differ (fun old new => Made old new ∨ Written old new) fs fs'

theorem MoreDirectories.grows (h : MoreDirectories fs fs') : Grows fs fs' :=
  h.mono fun _ _ => .inl

theorem SameNames.grows (h : SameNames fs fs') : Grows fs fs' :=
  h.mono fun _ _ => .inr

/-! ### What stays -/

namespace Grows

/-- What is no file is as it was. -/
theorem eq_some (h : Grows fs fs') {loc : Location} {n : Node} (hn : fs.node loc = some n)
    (hfile : ∀ bytes, n ≠ .file bytes) : fs'.node loc = some n := by
  rcases h.node loc with heq | ⟨hold, -⟩ | ⟨hold | ⟨bytes, hold⟩, -⟩
  · exact heq.trans hn
  · rw [hold] at hn
    cases hn
  · rw [hold] at hn
    cases hn
  · rw [hold] at hn
    exact absurd (Option.some.inj hn).symm (hfile bytes)

theorem directory (h : Grows fs fs') {loc : Location} (hdir : fs.node loc = some .directory) :
    fs'.node loc = some .directory :=
  h.eq_some hdir fun _ => nofun

/-- Names that did not end at something missing lead where they led. -/
theorem follow (h : Grows fs fs') {names : List StdString} :
    ∀ {loc : Location}, fs.follow loc names ≠ .stopped .notFound →
      fs'.follow loc names = fs.follow loc names := by
  induction names with
  | nil => exact fun _ => rfl
  | cons name names ih =>
      intro loc hfound
      unfold FileSystem.follow at hfound ⊢
      by_cases hdir : fs.node loc = some .directory
      · have hsetting : fs'.refuses = fs.refuses := congrArg Setting.refuses h.setting
        rw [if_neg (not_not.mpr hdir)] at hfound ⊢
        rw [if_neg (not_not.mpr (h.directory hdir)), hsetting]
        split
        · rfl
        · rename_i hrefuses
          rw [if_neg hrefuses] at hfound
          rcases h.node (enter loc name) with heq | ⟨hold, hnew⟩ | ⟨hold | ⟨bytes, hold⟩, bytes', hnew⟩
          · rw [heq]
            split at hfound
            · rfl
            · exact ih hfound
            · exact ih hfound
          · rw [hold] at hfound ⊢
            rw [hnew]
            exact ih hfound
          · rw [hold] at hfound ⊢
            rw [hnew]
            exact ih hfound
          · rw [hold] at hfound ⊢
            rw [hnew]
            exact ih hfound
      · rw [if_pos hdir] at hfound
        exact absurd rfl hfound

theorem walk (h : Grows fs fs') {links : Nat} :
    ∀ {loc : Location} {names : List StdString}, fs.walk links loc names ≠ .error .notFound →
      fs'.walk links loc names = fs.walk links loc names := by
  have hfollow : ∀ {through loc names},
      arrive through (fs.follow loc names) ≠ .error .notFound →
      fs'.follow loc names = fs.follow loc names := by
    intro through loc names hfound
    refine h.follow fun hstop => hfound ?_
    rw [hstop]
    rfl
  induction links with
  | zero =>
      intro loc names hfound
      rw [FileSystem.walk] at hfound ⊢
      rw [FileSystem.walk, hfollow hfound]
  | succ links ih =>
      intro loc names hfound
      rw [FileSystem.walk] at hfound ⊢
      rw [FileSystem.walk, hfollow hfound]
      cases hplace : fs.follow loc names with
      | place loc => rfl
      | stopped e => rfl
      | link dir target rest =>
          rw [hplace] at hfound
          simp only [arrive] at hfound ⊢
          split
          · rfl
          · rename_i hempty
            rw [if_neg hempty] at hfound
            exact ih hfound

/-- A path that led somewhere, or whose lookup failed, does so still. -/
theorem resolve (h : Grows fs fs') {p : Path} (hfound : fs.resolve p ≠ .error .notFound) :
    fs'.resolve p = fs.resolve p := by
  unfold FileSystem.resolve at hfound ⊢
  rw [show fs'.tooLong = fs.tooLong from congrArg Setting.tooLong h.setting,
    show fs'.linkMax = fs.linkMax from congrArg Setting.linkMax h.setting,
    show fs'.cwd = fs.cwd from congrArg Setting.cwd h.setting]
  split
  · rfl
  · rename_i hempty
    rw [if_neg hempty] at hfound
    split
    · rfl
    · rename_i hlong
      rw [if_neg hlong] at hfound
      exact h.walk hfound

theorem trans (h : Grows fs fs') (h' : Grows fs' fs'') : Grows fs fs'' := by
  refine Differ.trans (fun a b c hab hbc => ?_) h h'
  rcases hab with ⟨ha, hb⟩ | ⟨ha, bytes, hb⟩
  · rcases hbc with ⟨hb', -⟩ | ⟨hb' | ⟨bytes, hb'⟩, -⟩ <;> cases hb.symm.trans hb'
  · rcases hbc with ⟨hb', -⟩ | ⟨-, hc⟩
    · cases hb.symm.trans hb'
    · exact .inr ⟨ha, hc⟩

theorem resolve_ok (h : Grows fs fs') {p : Path} {loc : Location}
    (hres : fs.resolve p = .ok loc) : fs'.resolve p = .ok loc := by
  rw [h.resolve (by rw [hres]; exact nofun), hres]

theorem isDirectory (h : Grows fs fs') {p : Path} (hdir : fs.isDirectory p = true) :
    fs'.isDirectory p = true := by
  obtain ⟨loc, hres, hnode⟩ := isDirectory_eq_true.mp hdir
  exact isDirectory_eq_true.mpr ⟨loc, h.resolve_ok hres, h.directory hnode⟩

end Grows

namespace MoreDirectories

theorem trans (h : MoreDirectories fs fs') (h' : MoreDirectories fs' fs'') :
    MoreDirectories fs fs'' := by
  refine Differ.trans (fun a b c hab hbc => ?_) h h'
  rw [hab.2] at hbc
  cases hbc.1

/-- Without a new directory nothing has changed. -/
theorem eq_of_directory (h : MoreDirectories fs fs')
    (hold : ∀ loc, fs'.node loc = some .directory → fs.node loc = some .directory) : fs' = fs := by
  refine eq_of_node h.setting fun loc => ?_
  rcases h.node loc with heq | ⟨hnone, hdir⟩
  · exact heq
  · rw [hold loc hdir] at hnone
    cases hnone

/-- What is no directory is as it was. -/
theorem node_of_ne (h : MoreDirectories fs fs') {loc : Location}
    (hne : fs'.node loc ≠ some .directory) : fs'.node loc = fs.node loc :=
  (h.node loc).resolve_right fun hmade => hne hmade.2

end MoreDirectories

namespace SameNames

theorem trans (h : SameNames fs fs') (h' : SameNames fs' fs'') : SameNames fs fs'' :=
  Differ.trans (fun _ _ _ hab hbc => ⟨hab.1, hbc.2⟩) h h'

/-- What is neither a file nor nothing is the same on both. -/
theorem eq_some_iff (h : SameNames fs fs') {loc : Location} {n : Node}
    (hfile : ∀ bytes, n ≠ .file bytes) : fs'.node loc = some n ↔ fs.node loc = some n := by
  refine ⟨fun hn => ?_, fun hn => h.grows.eq_some hn hfile⟩
  rcases h.node loc with heq | ⟨-, bytes, hnew⟩
  · exact heq.symm.trans hn
  · rw [hnew] at hn
    exact absurd (Option.some.inj hn).symm (hfile bytes)

theorem directory (h : SameNames fs fs') (loc : Location) :
    fs'.node loc = some .directory ↔ fs.node loc = some .directory :=
  h.eq_some_iff fun _ => nofun

theorem device (h : SameNames fs fs') (loc : Location) :
    fs'.node loc = some .device ↔ fs.node loc = some .device :=
  h.eq_some_iff fun _ => nofun

theorem follow (h : SameNames fs fs') (names : List StdString) :
    ∀ loc, fs'.follow loc names = fs.follow loc names := by
  induction names with
  | nil => exact fun _ => rfl
  | cons name names ih =>
      intro loc
      have hsetting : fs'.refuses = fs.refuses := congrArg Setting.refuses h.setting
      simp only [FileSystem.follow, ne_eq, h.directory loc, hsetting, ih]
      rcases h.node (enter loc name) with heq | ⟨hold | ⟨bytes, hold⟩, bytes', hnew⟩
      · rw [heq]
      · rw [hold, hnew]
      · rw [hold, hnew]

theorem walk (h : SameNames fs fs') (links : Nat) : fs'.walk links = fs.walk links := by
  induction links with
  | zero =>
      funext loc names
      rw [FileSystem.walk, FileSystem.walk, h.follow]
  | succ links ih =>
      funext loc names
      rw [FileSystem.walk, FileSystem.walk, h.follow, ih]

theorem resolve (h : SameNames fs fs') (p : Path) : fs'.resolve p = fs.resolve p := by
  unfold FileSystem.resolve
  rw [show fs'.tooLong = fs.tooLong from congrArg Setting.tooLong h.setting,
    show fs'.linkMax = fs.linkMax from congrArg Setting.linkMax h.setting,
    show fs'.cwd = fs.cwd from congrArg Setting.cwd h.setting, h.walk]

end SameNames

/-! ## `create_directories` -/

theorem makeDirectory_more (fs : FileSystem) (loc : Location) (names : List StdString)
    (name : StdString) : MoreDirectories fs (fs.makeDirectory loc names name) := by
  unfold makeDirectory
  split
  · exact .refl fs
  · split
    · rename_i hnew
      exact .put ⟨hnew.2.2.1, rfl⟩
    · exact .refl fs

theorem makeDirectories_more (fs : FileSystem) (loc : Location) (names : List StdString) :
    ∀ before, MoreDirectories fs (fs.makeDirectories loc before names) := by
  induction names generalizing fs with
  | nil => exact fun _ => .refl fs
  | cons name names ih =>
      intro before
      exact (fs.makeDirectory_more loc before name).trans (ih _ _)

/-- However it ends, it has only added directories. -/
theorem createDirectories_more (fs : FileSystem) (p : Path) :
    MoreDirectories fs (fs.createDirectories p).2 := by
  unfold createDirectories
  split
  · exact .refl fs
  · exact .refl fs
  · exact fs.makeDirectories_more _ _ _

/-- After `create_directories` the path names a directory. -/
theorem createDirectories_spec {p : Path} (h : (fs.createDirectories p).1 = true) :
    (fs.createDirectories p).2.isDirectory p = true := by
  unfold createDirectories at h ⊢
  split at h
  · cases h
  · exact h
  · exact h

/-- Where the path names a directory, `create_directories` does nothing. -/
theorem createDirectories_self {p : Path} (h : fs.isDirectory p = true) :
    fs.createDirectories p = (true, fs) := by
  obtain ⟨loc, hres, hdir⟩ := isDirectory_eq_true.mp h
  have hexists : fs.pathExists p = some true := by
    simp [pathExists, answer, hres, hdir]
  simp only [createDirectories, hexists, h]

end FileSystem

end PacketDistribution.Lib
