/-
PacketDistribution.Lib.FileTree — file systems without links, file systems
that are trees, and changes that only add to them.

`FileSystem.LinkFree`: a name leads to the entry that has it. `Plain` is that
without devices, so there are only files and directories, and `Tree` says
besides that the root is a directory and so is whatever an entry is in.
Creating directories and writing files keep all three.

`FileSystem.Keeps`: every entry is still there, as it was. A file system
operation asks whether a path exists before it changes something, and the
answer is about the file system of that moment; `MoreDirectories.fresh` says
that in a tree a path without `..` which named nothing names nothing after
directories have been created, whatever they were. With `..` it can: the
missing directory it turned back from may be one of those created.

`resolve_child`, `resolve_ordinary` and `createDirectories_node`: along
ordinary names a path means the place it spells, and its directories are made
there and nowhere else.
-/
import Mathlib.Data.List.Induction
import PacketDistribution.Lib.TextStream

namespace PacketDistribution.Lib

/-- A further name of something else. -/
def Node.isLink : Node → Bool
  | .symlink _ | .hardLink _ => true
  | _ => false

namespace FileSystem

variable {fs fs' fs'' : FileSystem}

/-! ## No links, no devices -/

/-- There are no links. -/
def LinkFree (fs : FileSystem) : Prop :=
  ∀ loc n, fs.node loc = some n → n.isLink = false

/-- There are only files and directories. -/
structure Plain (fs : FileSystem) : Prop where
  linkFree : fs.LinkFree
  device : ∀ loc, fs.node loc ≠ some .device

theorem LinkFree.grows (h : fs.LinkFree) (hgrows : Grows fs fs') : fs'.LinkFree := by
  intro loc n hn
  rcases hgrows.node loc with heq | ⟨-, hnew⟩ | ⟨-, bytes, hnew⟩
  · exact h loc n (heq.symm.trans hn)
  · obtain rfl := Option.some.inj (hnew.symm.trans hn)
    rfl
  · obtain rfl := Option.some.inj (hnew.symm.trans hn)
    rfl

theorem Plain.grows (h : fs.Plain) (hgrows : Grows fs fs') : fs'.Plain := by
  refine ⟨h.linkFree.grows hgrows, fun loc hn => ?_⟩
  rcases hgrows.node loc with heq | ⟨-, hnew⟩ | ⟨-, bytes, hnew⟩
  · exact h.device loc (heq.symm.trans hn)
  · cases hnew.symm.trans hn
  · cases hnew.symm.trans hn

/-- An entry that is a file or a directory may be added or replaced. -/
theorem Plain.put (h : fs.Plain) (loc : Location) {n : Node} (hlink : n.isLink = false)
    (hdevice : n ≠ .device) : (fs.put loc n).Plain := by
  constructor
  · intro loc' n' hn
    by_cases hloc : loc' = loc
    · subst hloc
      rw [put_node_self] at hn
      obtain rfl := Option.some.inj hn
      exact hlink
    · rw [put_node_ne fs _ hloc] at hn
      exact h.linkFree loc' n' hn
  · intro loc' hn
    by_cases hloc : loc' = loc
    · subst hloc
      rw [put_node_self] at hn
      exact hdevice (Option.some.inj hn)
    · rw [put_node_ne fs _ hloc] at hn
      exact h.device loc' hn

namespace LinkFree

/-- A name leads to the entry that has it. -/
theorem follow_cons (h : fs.LinkFree) (loc : Location) (name : StdString)
    (names : List StdString) :
    fs.follow loc (name :: names) =
      if fs.node loc ≠ some .directory then .stopped .notFound
      else if fs.refuses loc name then .stopped .failed
      else fs.follow (Lib.enter loc name) names := by
  rw [FileSystem.follow]
  split
  · rfl
  · split
    · rfl
    · split
      · cases h _ _ ‹_›
      · cases h _ _ ‹_›
      · rfl

theorem follow_cons_place (h : fs.LinkFree) {loc end_ : Location} {name : StdString}
    {names : List StdString} :
    fs.follow loc (name :: names) = .place end_ ↔
      fs.node loc = some .directory ∧ fs.refuses loc name = false ∧
        fs.follow (Lib.enter loc name) names = .place end_ := by
  rw [h.follow_cons]
  by_cases hdir : fs.node loc = some .directory
  · cases hrefuses : fs.refuses loc name <;> simp [hdir]
  · simp [hdir]

theorem arrive_follow (h : fs.LinkFree)
    {through : Location → List StdString → Except LookupError Location}
    {names : List StdString} {loc end_ : Location} :
    arrive through (fs.follow loc names) = .ok end_ ↔ fs.follow loc names = .place end_ := by
  induction names generalizing loc with
  | nil => simp [FileSystem.follow, arrive]
  | cons name names ih =>
      rw [h.follow_cons]
      split
      · simp [arrive]
      · split
        · simp [arrive]
        · exact ih

theorem walk_ok (h : fs.LinkFree) {links : Nat} {loc end_ : Location} {names : List StdString} :
    fs.walk links loc names = .ok end_ ↔ fs.follow loc names = .place end_ := by
  cases links with
  | zero => exact h.arrive_follow
  | succ links => exact h.arrive_follow

theorem resolve_ok (h : fs.LinkFree) {p : Path} {loc : Location} :
    fs.resolve p = .ok loc ↔ p.isEmpty = false ∧ fs.tooLong p = false ∧
      fs.follow (p.start fs.cwd) p.parts = .place loc := by
  unfold FileSystem.resolve
  cases p.isEmpty with
  | true => simp
  | false =>
      cases fs.tooLong p with
      | true => simp
      | false => simp [h.walk_ok]

/-- A child of a directory is an entry of it, if it can be looked up. -/
theorem resolve_child (h : fs.LinkFree) {p : Path} {dir loc : Location} {name : StdString}
    (hdir : fs.resolve p = .ok dir) (hname : isOrdinary name = true)
    (hchild : fs.resolve (p.child name) = .ok loc) : loc = dir ++ [name] := by
  have hfollow : ∀ (names : List StdString) (from_ : Location), fs.follow from_ names = .place dir →
      fs.follow from_ (names ++ [name]) = .place loc → loc = dir ++ [name] := by
    intro names
    induction names with
    | nil =>
        intro from_ hplace hlater
        obtain rfl := Followed.place.inj hplace
        obtain ⟨-, -, hend⟩ := h.follow_cons_place.mp hlater
        rw [enter_ordinary hname] at hend
        exact (Followed.place.inj hend).symm
    | cons n names ih =>
        intro from_ hplace hlater
        obtain ⟨-, -, hplace'⟩ := h.follow_cons_place.mp hplace
        obtain ⟨-, -, hlater'⟩ := h.follow_cons_place.mp hlater
        exact ih _ hplace' hlater'
  obtain ⟨-, -, hplace⟩ := h.resolve_ok.mp hdir
  obtain ⟨-, -, hlater⟩ := h.resolve_ok.mp hchild
  exact hfollow p.parts _ hplace hlater

end LinkFree

/-! ## Trees -/

/-- There are no links, the root is a directory, and every entry is in a
directory. -/
structure Tree (fs : FileSystem) : Prop where
  linkFree : fs.LinkFree
  root : fs.node [] = some .directory
  parent : ∀ loc name, fs.node (loc ++ [name]) ≠ none → fs.node loc = some .directory

/-- The places above an entry are directories. -/
theorem Tree.above (h : fs.Tree) {loc rest : Location} (hnode : fs.node (loc ++ rest) ≠ none)
    (hrest : rest ≠ []) : fs.node loc = some .directory := by
  induction rest using List.reverseRecOn with
  | nil => exact absurd rfl hrest
  | append_singleton rest name ih =>
      have hdir : fs.node (loc ++ rest) = some .directory :=
        h.parent _ name (by rwa [List.append_assoc])
      by_cases hnil : rest = []
      · simpa [hnil] using hdir
      · exact ih (by simp [hdir]) hnil

/-- The directory above a directory is one. -/
theorem Tree.dropLast (h : fs.Tree) {loc : Location} (hdir : fs.node loc = some .directory) :
    fs.node loc.dropLast = some .directory := by
  rcases List.eq_nil_or_concat loc with rfl | ⟨init, name, rfl⟩
  · exact hdir
  · rw [List.concat_eq_append, List.dropLast_concat]
    exact h.parent init name (by simp [← List.concat_eq_append, hdir])

/-- A name looked up in a directory leads to a directory, or to an entry of
the directory itself. -/
theorem Tree.enter (h : fs.Tree) {loc : Location} (hdir : fs.node loc = some .directory)
    (name : StdString) :
    fs.node (enter loc name) = some .directory ∨ Lib.enter loc name = loc ++ [name] := by
  unfold Lib.enter
  split
  · exact .inl hdir
  · split
    · exact .inl (h.dropLast hdir)
    · exact .inr rfl

/-- An entry may be added to a directory, or replaced in it by a file. -/
theorem Tree.put (h : fs.Tree) (loc : Location) (name : StdString) (n : Node)
    (hlink : n.isLink = false) (hdir : fs.node loc = some .directory)
    (hn : n = .directory ∨ fs.node (loc ++ [name]) ≠ some .directory) :
    (fs.put (loc ++ [name]) n).Tree := by
  have hkeep : ∀ loc', fs.node loc' = some .directory →
      (fs.put (loc ++ [name]) n).node loc' = some .directory := by
    intro loc' hloc'
    by_cases heq : loc' = loc ++ [name]
    · rcases hn with rfl | hn
      · rw [heq, put_node_self]
      · rw [heq] at hloc'
        exact absurd hloc' hn
    · rw [put_node_ne _ _ heq]
      exact hloc'
  refine ⟨fun loc' n' hnode => ?_, hkeep [] h.root, fun loc' name' hnode => hkeep loc' ?_⟩
  · by_cases heq : loc' = loc ++ [name]
    · rw [heq, put_node_self] at hnode
      obtain rfl := Option.some.inj hnode
      exact hlink
    · rw [put_node_ne _ _ heq] at hnode
      exact h.linkFree loc' n' hnode
  · by_cases heq : loc' ++ [name'] = loc ++ [name]
    · obtain ⟨rfl, -⟩ := List.append_inj' heq rfl
      exact hdir
    · rw [put_node_ne _ _ heq] at hnode
      exact h.parent loc' name' hnode

theorem Tree.makeDirectory (h : fs.Tree) (loc : Location) (names : List StdString)
    (name : StdString) : (fs.makeDirectory loc names name).Tree := by
  unfold FileSystem.makeDirectory
  split
  · exact h
  · split
    · rename_i dir _ hnew
      rcases h.enter hnew.1 name with hbad | heq
      · rw [hnew.2.2.1] at hbad
        cases hbad
      · rw [heq]
        exact h.put dir name .directory rfl hnew.1 (.inl rfl)
    · exact h

theorem Tree.makeDirectories (h : fs.Tree) (loc : Location) (names : List StdString) :
    ∀ before, (fs.makeDirectories loc before names).Tree := by
  induction names generalizing fs with
  | nil => exact fun _ => h
  | cons name names ih => exact fun before => ih (h.makeDirectory loc before name) _

/-- `create_directories` keeps a tree a tree, however it ends. -/
theorem Tree.createDirectories (h : fs.Tree) (p : Path) : (fs.createDirectories p).2.Tree := by
  unfold FileSystem.createDirectories
  split
  · exact h
  · exact h
  · exact h.makeDirectories _ _ _

/-- What names lead to is a directory, or an entry of a directory. -/
theorem Tree.follow (h : fs.Tree) {names : List StdString} {loc end_ : Location}
    (hfollow : fs.follow loc names = .place end_) (hnames : names ≠ []) :
    fs.node end_ = some .directory ∨
      ∃ dir name, end_ = dir ++ [name] ∧ fs.node dir = some .directory := by
  induction names generalizing loc with
  | nil => exact absurd rfl hnames
  | cons name names ih =>
      obtain ⟨hdir, -, hrest⟩ := h.linkFree.follow_cons_place.mp hfollow
      by_cases hnil : names = []
      · subst hnil
        obtain rfl := Followed.place.inj hrest
        rcases h.enter hdir name with hdir' | heq
        · exact .inl hdir'
        · exact .inr ⟨loc, name, heq, hdir⟩
      · exact ih hrest hnil

/-- A stream is opened on an entry of a directory. -/
theorem Tree.outputTarget (h : fs.Tree) {p : Path} {loc : Location}
    (ht : fs.outputTarget p = some loc) :
    ∃ dir name, loc = dir ++ [name] ∧ fs.node dir = some .directory := by
  obtain ⟨hres, hopens, -⟩ := outputTarget_eq_some.mp ht
  obtain ⟨hempty, -, hfollow⟩ := h.linkFree.resolve_ok.mp hres
  have hdir : fs.node loc ≠ some .directory := by
    intro hbad
    rw [hbad] at hopens
    cases hopens
  by_cases hnil : p.parts = []
  · -- the path is the root alone
    have habs : p.absolute = true := by
      simpa [Path.isEmpty, hnil] using hempty
    rw [hnil, Path.start, if_pos habs] at hfollow
    obtain rfl := Followed.place.inj hfollow
    exact absurd h.root hdir
  · rcases h.follow hfollow hnil with hbad | hentry
    · exact absurd hbad hdir
    · exact hentry

/-- Writing files where streams can be opened keeps a tree a tree. -/
theorem Tree.writesOnly (h : fs.Tree) {written : Location → Prop}
    (hw : WritesOnly written fs fs')
    (hentry : ∀ loc, written loc → ∃ dir name, loc = dir ++ [name] ∧
      fs.node dir = some .directory) : fs'.Tree := by
  refine ⟨h.linkFree.grows hw.same.grows, (hw.same.directory _).mpr h.root,
    fun loc name hnode => (hw.same.directory _).mpr ?_⟩
  by_cases hown : written (loc ++ [name])
  · obtain ⟨dir, name', heq, hdir⟩ := hentry _ hown
    obtain ⟨rfl, -⟩ := List.append_inj' heq rfl
    exact hdir
  · rw [hw.node _ hown] at hnode
    exact h.parent loc name hnode

/-! ## Keeping what is there -/

/-- A file or a directory where there was nothing. -/
def Added (old new : Option Node) : Prop :=
  old = none ∧ (new = some .directory ∨ ∃ bytes, new = some (.file bytes))

/-- Every entry is still there, as it was. -/
abbrev Keeps (fs fs' : FileSystem) : Prop := Differ Added fs fs'

namespace Keeps

theorem trans (h : Keeps fs fs') (h' : Keeps fs' fs'') : Keeps fs fs'' := by
  refine Differ.trans (fun a b c hab hbc => ?_) h h'
  exact ⟨hab.1, hbc.2⟩

theorem eq_some (h : Keeps fs fs') {loc : Location} {n : Node} (hn : fs.node loc = some n) :
    fs'.node loc = some n := by
  rcases h.node loc with heq | ⟨hnone, -⟩
  · exact heq.trans hn
  · rw [hnone] at hn
    cases hn

theorem grows (h : Keeps fs fs') : Grows fs fs' := by
  refine h.mono fun old new hadded => ?_
  rcases hadded with ⟨hold, hnew | hnew⟩
  · exact .inl ⟨hold, hnew⟩
  · exact .inr ⟨.inl hold, hnew⟩

end Keeps

theorem MoreDirectories.keeps (h : MoreDirectories fs fs') : Keeps fs fs' :=
  h.mono fun _ _ hmade => ⟨hmade.1, .inl hmade.2⟩

/-- Writing only where there was nothing keeps what is there. -/
theorem keeps_of_writesOnly {written : Location → Prop}
    (h : WritesOnly written fs fs') (hfresh : ∀ loc, written loc → fs.node loc = none) :
    Keeps fs fs' := by
  refine ⟨h.same.setting, fun loc => ?_⟩
  by_cases hw : written loc
  · exact (h.same.node loc).imp_right fun hwritten => ⟨hfresh loc hw, .inr hwritten.2⟩
  · exact .inl (h.node loc hw)

/-! ## Paths without `..` -/

/-- Names other than `..` lead down. -/
theorem LinkFree.follow_down (h : fs.LinkFree) {names : List StdString}
    (hup : ['.', '.'] ∉ names) {loc end_ : Location}
    (hfollow : fs.follow loc names = .place end_) : ∃ rest, end_ = loc ++ rest := by
  induction names generalizing loc with
  | nil => exact ⟨[], by simpa [FileSystem.follow] using hfollow.symm⟩
  | cons name names ih =>
      rw [List.mem_cons, not_or] at hup
      obtain ⟨-, -, hrest⟩ := h.follow_cons_place.mp hfollow
      obtain ⟨rest, rfl⟩ := ih hup.2 hrest
      by_cases hdot : name = ['.']
      · exact ⟨rest, by rw [Lib.enter, if_pos hdot]⟩
      · exact ⟨name :: rest, by rw [Lib.enter, if_neg hdot, if_neg (Ne.symm hup.1)]; simp⟩

/-- A walk down to an entry that was there before needs no new directory. -/
theorem MoreDirectories.follow_back (h : MoreDirectories fs fs') (htree : fs.Tree)
    {names : List StdString} (hup : ['.', '.'] ∉ names) {loc end_ : Location}
    (hfollow : fs'.follow loc names = .place end_) (hnode : fs.node end_ ≠ none) :
    fs.follow loc names = .place end_ := by
  have hfree' : fs'.LinkFree := htree.linkFree.grows h.grows
  induction names generalizing loc with
  | nil => exact hfollow
  | cons name names ih =>
      obtain ⟨rest, hrest⟩ := hfree'.follow_down hup hfollow
      obtain ⟨hdir', hrefuses, hlater⟩ := hfree'.follow_cons_place.mp hfollow
      rw [List.mem_cons, not_or] at hup
      have hsetting : fs'.refuses = fs.refuses := congrArg Setting.refuses h.setting
      have hdir : fs.node loc = some .directory := by
        subst hrest
        by_cases hnil : rest = []
        · rw [hnil, List.append_nil] at hnode
          rcases h.node loc with heq | ⟨hnone, -⟩
          · exact heq.symm.trans hdir'
          · exact absurd hnone hnode
        · exact htree.above hnode hnil
      exact htree.linkFree.follow_cons_place.mpr
        ⟨hdir, hsetting ▸ hrefuses, ih hup.2 hlater⟩

/-- A path without `..` that named nothing does not name an old entry after
directories have been created. -/
theorem MoreDirectories.fresh (h : MoreDirectories fs fs') (htree : fs.Tree) {p : Path}
    (hup : ['.', '.'] ∉ p.parts) (hnot : fs.pathExists p = some false) {loc : Location}
    (hres : fs'.resolve p = .ok loc) : fs.node loc = none := by
  by_contra hnode
  have hres' : fs.resolve p = .ok loc := by
    obtain ⟨hempty, hlong, hfollow⟩ := (htree.linkFree.grows h.grows).resolve_ok.mp hres
    rw [show fs'.tooLong = fs.tooLong from congrArg Setting.tooLong h.setting] at hlong
    rw [show fs'.cwd = fs.cwd from congrArg Setting.cwd h.setting] at hfollow
    exact htree.linkFree.resolve_ok.mpr
      ⟨hempty, hlong, h.follow_back htree hup hfollow hnode⟩
  rw [FileSystem.pathExists, hres', answer, Option.some.injEq] at hnot
  exact hnode (by simpa using hnot)

/-! ## Paths of ordinary names -/

/-- Ordinary names lead to the place they spell. -/
theorem LinkFree.follow_ordinary (h : fs.LinkFree) {names : List StdString}
    (hord : ∀ name ∈ names, isOrdinary name = true) {loc end_ : Location}
    (hfollow : fs.follow loc names = .place end_) : end_ = loc ++ names := by
  induction names generalizing loc with
  | nil => simpa [FileSystem.follow] using hfollow.symm
  | cons name names ih =>
      rw [List.forall_mem_cons] at hord
      obtain ⟨-, -, hrest⟩ := h.follow_cons_place.mp hfollow
      have hend := ih hord.2 hrest
      rw [enter_ordinary hord.1, List.append_assoc] at hend
      exact hend

theorem LinkFree.resolve_ordinary (h : fs.LinkFree) {p : Path} (hrel : p.absolute = false)
    (hord : ∀ name ∈ p.parts, isOrdinary name = true) {loc : Location}
    (hres : fs.resolve p = .ok loc) : loc = fs.cwd ++ p.parts := by
  obtain ⟨-, -, hfollow⟩ := h.resolve_ok.mp hres
  have hend := h.follow_ordinary hord hfollow
  rwa [Path.start, hrel, if_neg Bool.false_ne_true] at hend

/-- A name in the working directory. -/
theorem LinkFree.resolve_name (h : fs.LinkFree) (hcwd : fs.node fs.cwd = some .directory)
    {name : StdString} (hname : isOrdinary name = true) :
    fs.resolve ⟨false, [name]⟩ =
      if fs.tooLong ⟨false, [name]⟩ || fs.refuses fs.cwd name then .error .failed
      else .ok (fs.cwd ++ [name]) := by
  have hfollow : fs.follow fs.cwd [name] =
      if fs.refuses fs.cwd name then .stopped .failed else .place (fs.cwd ++ [name]) := by
    rw [h.follow_cons, if_neg (not_not.mpr hcwd), enter_ordinary hname]
    rfl
  have hwalk : fs.walk fs.linkMax fs.cwd [name] =
      if fs.refuses fs.cwd name then .error .failed else .ok (fs.cwd ++ [name]) := by
    cases fs.linkMax with
    | zero =>
        rw [FileSystem.walk, hfollow]
        split <;> rfl
    | succ links =>
        rw [FileSystem.walk, hfollow]
        split <;> rfl
  unfold FileSystem.resolve
  cases fs.tooLong ⟨false, [name]⟩ with
  | true => simp [Path.isEmpty]
  | false => simpa [Path.isEmpty, Path.start] using hwalk

/-- Making a directory behind ordinary names changes nothing elsewhere. -/
theorem LinkFree.makeDirectory_node (h : fs.LinkFree) {before : List StdString}
    {name : StdString} (hord : ∀ n ∈ before ++ [name], isOrdinary n = true)
    {loc other : Location} (hother : other ≠ loc ++ (before ++ [name])) :
    (fs.makeDirectory loc before name).node other = fs.node other := by
  rw [List.forall_mem_append, List.forall_mem_singleton] at hord
  unfold FileSystem.makeDirectory
  split
  · rfl
  · rename_i dir hwalk
    have hdir := h.follow_ordinary hord.1 (h.walk_ok.mp hwalk)
    split
    · rw [enter_ordinary hord.2, hdir, List.append_assoc]
      exact put_node_ne fs _ hother
    · rfl

/-- Making the directories along ordinary names changes nothing elsewhere. -/
theorem LinkFree.makeDirectories_node (h : fs.LinkFree) {names : List StdString}
    {loc other : Location} {before : List StdString}
    (hord : ∀ name ∈ before ++ names, isOrdinary name = true)
    (hother : ∀ pre, pre <+: names → other ≠ loc ++ (before ++ pre)) :
    (fs.makeDirectories loc before names).node other = fs.node other := by
  induction names generalizing fs before with
  | nil => rfl
  | cons name names ih =>
      rw [FileSystem.makeDirectories, ih (h.grows (fs.makeDirectory_more loc before name).grows)]
      · refine h.makeDirectory_node (fun n hn => hord n ?_) (hother [name] ?_)
        · rw [List.mem_append, List.mem_singleton] at hn
          rw [List.mem_append, List.mem_cons]
          exact hn.imp_right .inl
        · exact List.cons_prefix_cons.mpr ⟨rfl, List.nil_prefix⟩
      · rwa [List.append_assoc]
      · intro pre hpre
        rw [List.append_assoc]
        exact hother (name :: pre) (List.cons_prefix_cons.mpr ⟨rfl, hpre⟩)

theorem LinkFree.createDirectories_node (h : fs.LinkFree) {p : Path} (hrel : p.absolute = false)
    (hord : ∀ name ∈ p.parts, isOrdinary name = true) {other : Location}
    (hother : ∀ pre, pre <+: p.parts → other ≠ fs.cwd ++ pre) :
    (fs.createDirectories p).2.node other = fs.node other := by
  unfold FileSystem.createDirectories
  split
  · rfl
  · rfl
  · rw [Path.start, hrel, if_neg Bool.false_ne_true]
    exact h.makeDirectories_node hord hother

end FileSystem

end PacketDistribution.Lib
