/-
PacketDistribution.Keys.DeploymentTheorems — the key files the programs read,
on a disk where `keygen` is run.

The server reads `private-key.pem` and the client `public-key.pem`, in the
working directory; `keygen` writes into `private` and `public`, whatever its
folder options say. So where no link leads out of these folders only a merged
run can ever give a program its file (`keyFiles_untouched`), and such a file
holds no key as it was generated (`merged_read`).
-/
import PacketDistribution.Keys.HistoryTheorems

namespace PacketDistribution.Keys

open PacketDistribution.Lib

variable {nl : Newline} {fs fs' fs'' : FileSystem} {name : StdString} {pairs : List KeyPair}

/-! ## The files -/

/-- The file `main` of `central_server/main.cpp` reads. -/
def privateKeyFile : StdString :=
  ['p', 'r', 'i', 'v', 'a', 't', 'e', '-', 'k', 'e', 'y', '.', 'p', 'e', 'm']

/-- The file `main` of `client_test/main.cpp` reads. -/
def publicKeyFile : StdString :=
  ['p', 'u', 'b', 'l', 'i', 'c', '-', 'k', 'e', 'y', '.', 'p', 'e', 'm']

/-- The folders `keygen` always writes into. -/
def isFolder (name : StdString) : Bool :=
  name = ['p', 'r', 'i', 'v', 'a', 't', 'e'] || name = ['p', 'u', 'b', 'l', 'i', 'c']

/-- If the run writes merged files, neither of them is the file `name` of the
working directory. -/
def NamesOther (name : StdString) (fs : FileSystem) (run : Options × List KeyPair) : Prop :=
  (Config.ofOptions run.1).merge = true →
    fs.outputTarget (Path.ofString (Config.ofOptions run.1).privateKeyMergedFile) ≠
        some (fs.cwd ++ [name]) ∧
      fs.outputTarget (Path.ofString (Config.ofOptions run.1).publicKeyMergedFile) ≠
        some (fs.cwd ++ [name])

instance (name : StdString) (fs : FileSystem) (run : Options × List KeyPair) :
    Decidable (NamesOther name fs run) :=
  inferInstanceAs (Decidable (_ → _))

/-! ## What leaves a file of the working directory alone -/

/-- The working directory is one and stays where it is, and its file `name`
is as it was. -/
structure Spares (name : StdString) (fs fs' : FileSystem) : Prop where
  setting : fs'.toSetting = fs.toSetting
  directory : fs.node fs.cwd = some .directory → fs'.node fs.cwd = some .directory
  file : fs'.node (fs.cwd ++ [name]) = fs.node (fs.cwd ++ [name])

theorem Spares.cwd (h : Spares name fs fs') : fs'.cwd = fs.cwd :=
  congrArg Setting.cwd h.setting

theorem Spares.refl (name : StdString) (fs : FileSystem) : Spares name fs fs :=
  ⟨rfl, id, rfl⟩

theorem Spares.trans (h : Spares name fs fs') (h' : Spares name fs' fs'') :
    Spares name fs fs'' where
  setting := h'.setting.trans h.setting
  directory hdir := h.cwd ▸ h'.directory (h.cwd.symm ▸ h.directory hdir)
  file := by
    have hlater := h'.file
    rw [h.cwd] at hlater
    exact hlater.trans h.file

theorem spares_of_writesOnly {written : Location → Prop} (h : WritesOnly written fs fs')
    (hnot : ¬ written (fs.cwd ++ [name])) : Spares name fs fs' :=
  ⟨h.same.setting, (h.same.directory _).mpr, h.node _ hnot⟩

/-- Making one of the folders. -/
theorem spares_createDirectories (hfree : fs.LinkFree) {folder : StdString}
    (hfolder : isOrdinary folder = true) (hne : folder ≠ name) :
    Spares name fs (fs.createDirectories ⟨false, [folder]⟩).2 where
  setting := (fs.createDirectories_more _).setting
  directory := (fs.createDirectories_more _).grows.directory
  file := by
    refine hfree.createDirectories_node rfl (by simpa using hfolder) fun pre hpre heq => ?_
    obtain rfl := List.append_cancel_left heq
    exact hne (List.cons_prefix_cons.mp hpre).1.symm

/-- Writing into one of the folders. -/
theorem outputTarget_folder (hfree : fs.LinkFree) {folder child : StdString}
    (hfolder : isOrdinary folder = true) (hchild : isOrdinary child = true) :
    fs.outputTarget (Path.child ⟨false, [folder]⟩ child) ≠ some (fs.cwd ++ [name]) := by
  intro ht
  have hres := (FileSystem.outputTarget_eq_some.mp ht).1
  have hloc := hfree.resolve_ordinary rfl (by simp [Path.child, hfolder, hchild]) hres
  have hlen := congrArg List.length (List.append_cancel_left hloc)
  simp [Path.child] at hlen

/-- The loop of a run that writes separate files, from any counter on and
however it ends. -/
theorem loop_spares (nl : Newline) (hname : isFolder name = false) (force : Bool)
    (pairs : List KeyPair) (i : Int) (closed : List (Path × Bool)) (hfree : fs.LinkFree) :
    Spares name fs
      (writeSeparateKeysFrom nl privateFolder publicFolder force i closed pairs fs).disk := by
  simp only [isFolder, Bool.or_eq_false_iff, decide_eq_false_iff_not] at hname
  have hprivate : privateFolder = ⟨false, [['p', 'r', 'i', 'v', 'a', 't', 'e']]⟩ := by decide
  have hpublic : publicFolder = ⟨false, [['p', 'u', 'b', 'l', 'i', 'c']]⟩ := by decide
  induction pairs generalizing i closed fs with
  | nil => exact .refl name fs
  | cons pair pairs ih =>
      unfold writeSeparateKeysFrom
      split
      · exact .refl name fs
      · dsimp only
        split
        · exact .refl name fs
        · have hmade : Spares name fs (fs.createDirectories privateFolder).2 :=
            hprivate ▸ spares_createDirectories hfree (by decide) (Ne.symm hname.1)
          have hfree₁ := hfree.grows (fs.createDirectories_more privateFolder).grows
          split
          · exact hmade
          · have hmade' : Spares name fs
                ((fs.createDirectories privateFolder).2.createDirectories publicFolder).2 :=
              hmade.trans (hpublic ▸ spares_createDirectories hfree₁ (by decide)
                (Ne.symm hname.2))
            have hfree₂ := hfree₁.grows (FileSystem.createDirectories_more _ publicFolder).grows
            split
            · exact hmade'
            · have hframe := writePair_frame nl
                ((fs.createDirectories privateFolder).2.createDirectories publicFolder).2
                (privateFolder.child (privateName (i + 1)))
                (publicFolder.child (publicName (i + 1))) pair
              refine (hmade'.trans ?_).trans (ih _ _ (hfree₂.grows hframe.same.grows))
              refine spares_of_writesOnly hframe ?_
              rw [hprivate, hpublic] at hfree₂ ⊢
              rintro (ht | ht)
              · exact outputTarget_folder hfree₂ (by decide) (isOrdinary_privateName _) ht
              · exact outputTarget_folder hfree₂ (by decide) (isOrdinary_publicName _) ht

/-- One run of `main`. -/
theorem writeKeys_spares (nl : Newline) (hname : isFolder name = false)
    {run : Options × List KeyPair} (hother : NamesOther name fs run) (hfree : fs.LinkFree) :
    Spares name fs (writeKeys nl (Config.ofOptions run.1) run.2 fs).disk := by
  unfold writeKeys
  split
  · rename_i hmerge
    obtain ⟨hprivate, hpublic⟩ := hother hmerge
    refine spares_of_writesOnly (merged_frame nl _ _ _ run.2 fs) ?_
    rintro (ht | ht)
    · exact hprivate ht
    · exact hpublic ht
  · exact loop_spares nl hname _ run.2 0 [] hfree

/-! ## What the programs read -/

/-- `read_key` on a file of the working directory depends on nothing else. -/
theorem readKey_spares (h : Spares name fs fs') (hfree : fs.LinkFree) (hfree' : fs'.LinkFree)
    (hcwd : fs.node fs.cwd = some .directory) (hname : isOrdinary name = true) :
    readKey nl fs' ⟨false, [name]⟩ = readKey nl fs ⟨false, [name]⟩ := by
  have hcwd' : fs'.node fs'.cwd = some .directory := by
    rw [h.cwd]
    exact h.directory hcwd
  have hopen : fs'.openInput ⟨false, [name]⟩ = fs.openInput ⟨false, [name]⟩ := by
    unfold FileSystem.openInput
    rw [hfree.resolve_name hcwd hname, hfree'.resolve_name hcwd' hname, h.setting]
    split
    · rfl
    · rename_i loc heq
      split at heq
      · cases heq
      · obtain rfl := Except.ok.inj heq
        rw [h.file]
  simp only [readKey, hopen, h.cwd]

theorem history_spares (hname : isFolder name = false) (hfree : fs.LinkFree)
    (h : (keygen nl fs).Reach (NamesOther name) fs') : Spares name fs fs' ∧ fs'.LinkFree := by
  induction h with
  | start h0 => exact h0 ▸ ⟨.refl name _, h0 ▸ hfree⟩
  | next _ hother hstep ih =>
      obtain rfl := Option.some.inj hstep
      exact ⟨ih.1.trans (writeKeys_spares nl hname hother ih.2),
        ih.2.grows (writeKeys_grows nl _ _ _)⟩

/-- On a disk without links, in every history of runs in which no merged file
is one of them, whatever the options and however each run ends, the two key
files of the working directory are as they were, and the server and the client
read from them what they read before, or fail as they did. -/
theorem keyFiles_untouched (hfree : fs.LinkFree) (hcwd : fs.node fs.cwd = some .directory)
    (h : (keygen nl fs).Reach
      (fun fs run => NamesOther privateKeyFile fs run ∧ NamesOther publicKeyFile fs run) fs') :
    (fs'.node (fs.cwd ++ [privateKeyFile]) = fs.node (fs.cwd ++ [privateKeyFile]) ∧
        fs'.node (fs.cwd ++ [publicKeyFile]) = fs.node (fs.cwd ++ [publicKeyFile])) ∧
      readKey nl fs' (Path.ofString privateKeyFile) = readKey nl fs (Path.ofString privateKeyFile) ∧
      readKey nl fs' (Path.ofString publicKeyFile) =
        readKey nl fs (Path.ofString publicKeyFile) := by
  obtain ⟨hprivate, hfree'⟩ :=
    history_spares (by decide) hfree (h.mono fun _ _ hother => hother.1)
  obtain ⟨hpublic, -⟩ := history_spares (by decide) hfree (h.mono fun _ _ hother => hother.2)
  exact ⟨⟨hprivate.file, hpublic.file⟩, readKey_spares hprivate hfree hfree' hcwd (by decide),
    readKey_spares hpublic hfree hfree' hcwd (by decide)⟩

/-- Three runs on an empty disk: two pairs into the folders, a refused run, and
a merged run into other files. No program finds its key. -/
theorem keyFiles_untouched_three : ∃ disk,
    (keygen .posix emptyDisk).run emptyDisk
      [(noOptions, [examplePair, examplePair]),
        ({ noOptions with force := some false }, [examplePair]),
        ({ noOptions with
            merge := some true, publicKeyMergedFile := some ['p']
            privateKeyMergedFile := some ['s'] }, [examplePair])] = some disk ∧
      readKey .posix disk (Path.ofString privateKeyFile) =
        .error (.invalidArgument "Couldn't find the key at path: " ⟨true, [privateKeyFile]⟩) ∧
      readKey .posix disk (Path.ofString publicKeyFile) =
        .error (.invalidArgument "Couldn't find the key at path: " ⟨true, [publicKeyFile]⟩) := by
  obtain ⟨disk, hrun⟩ : ∃ disk, (keygen .posix emptyDisk).run emptyDisk
      [(noOptions, [examplePair, examplePair]),
        ({ noOptions with force := some false }, [examplePair]),
        ({ noOptions with
            merge := some true, publicKeyMergedFile := some ['p']
            privateKeyMergedFile := some ['s'] }, [examplePair])] = some disk := ⟨_, rfl⟩
  have hreach : (keygen .posix emptyDisk).Reach
      (fun fs run => NamesOther privateKeyFile fs run ∧ NamesOther publicKeyFile fs run) disk :=
    .run (.start rfl) (by decide +kernel) hrun
  obtain ⟨-, hprivate, hpublic⟩ :=
    keyFiles_untouched emptyDisk_plain.linkFree (by decide) hreach
  exact ⟨disk, hrun, hprivate.trans rfl, hpublic.trans rfl⟩

end PacketDistribution.Keys
