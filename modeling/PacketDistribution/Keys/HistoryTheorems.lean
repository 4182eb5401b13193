/-
PacketDistribution.Keys.HistoryTheorems — a disk on which `keygen` is run
again and again, and the programs that read its keys.

`keygen` is the machine whose steps are whole runs of `main` on verified key
pairs, whatever their options and however they end.

* `unforced_runs_keep`: runs with `--force=false` change no entry of a tree.
* `last_run_stored`: with separate files on a plain disk, file `i` holds the
  `i`-th key of the last run that had one, so a shorter run leaves keys of a
  longer one behind.
* `merged_read`: what `read_key` makes of a merged file, which is never one of
  the keys in it.
-/
import PacketDistribution.Keys.ContentTheorems
import PacketDistribution.Keys.ReadKeyTheorems
import PacketDistribution.Lib.FileTree
import PacketDistribution.Lib.Machine

namespace PacketDistribution.Keys

open PacketDistribution.Lib

variable {nl : Newline} {fs fs' : FileSystem} {A B : Path} {pairs : List KeyPair}

/-- The disk under runs of `main`. -/
def keygen (nl : Newline) (disk : FileSystem) : Machine FileSystem (Options × List KeyPair) where
  init fs := fs = disk
  step fs run := some (writeKeys nl (Config.ofOptions run.1) run.2 fs).disk

/-! ## Runs without `force` -/

/-- Where the check has found no file, writing a pair keeps what is there. -/
theorem writePair_keeps (nl : Newline) {p q : Path} (pair : KeyPair)
    (hp : ∀ loc, fs.outputTarget p = some loc → fs.node loc = none)
    (hq : ∀ loc, fs.outputTarget q = some loc → fs.node loc = none) :
    FileSystem.Keeps fs (writePair nl p q pair fs).1 := by
  refine FileSystem.keeps_of_writesOnly (writePair_frame nl fs p q pair) fun loc hloc => ?_
  rcases hloc with hloc | hloc
  · exact hp loc hloc
  · exact hq loc hloc

theorem writePair_tree (nl : Newline) (h : fs.Tree) (p q : Path) (pair : KeyPair) :
    (writePair nl p q pair fs).1.Tree :=
  h.writesOnly (writePair_frame nl fs p q pair) fun _ hloc => hloc.elim h.outputTarget h.outputTarget

/-- A path that passed the check has no old entry once the folders are made. -/
theorem outputTarget_fresh (h : FileSystem.MoreDirectories fs fs') (htree : fs.Tree) {p : Path}
    (hup : ['.', '.'] ∉ p.parts) (hnot : fs.pathExists p = some false) {loc : Location}
    (ht : fs'.outputTarget p = some loc) : fs'.node loc = none := by
  obtain ⟨hres, hopens, -⟩ := FileSystem.outputTarget_eq_some.mp ht
  rw [h.node_of_ne fun hdir => ?_]
  · exact h.fresh htree hup hnot hres
  · rw [hdir] at hopens
    cases hopens

theorem parts_privatePath (hA : ['.', '.'] ∉ A.parts) (i : Int) :
    ['.', '.'] ∉ (A.child (privateName i)).parts := by
  simp [Path.child, privateName, hA]

theorem parts_publicPath (hB : ['.', '.'] ∉ B.parts) (i : Int) :
    ['.', '.'] ∉ (B.child (publicName i)).parts := by
  simp [Path.child, publicName, hB]

/-- The loop keeps every entry, from any counter on and however it ends. -/
theorem loop_keeps (nl : Newline) (hA : ['.', '.'] ∉ A.parts) (hB : ['.', '.'] ∉ B.parts)
    (pairs : List KeyPair) (i : Int) (closed : List (Path × Bool)) (htree : fs.Tree) :
    FileSystem.Keeps fs (writeSeparateKeysFrom nl A B false i closed pairs fs).disk ∧
      (writeSeparateKeysFrom nl A B false i closed pairs fs).disk.Tree := by
  induction pairs generalizing i closed fs with
  | nil => exact ⟨.refl fs, htree⟩
  | cons pair pairs ih =>
      unfold writeSeparateKeysFrom
      split
      · exact ⟨.refl fs, htree⟩
      · dsimp only
        split
        · exact ⟨.refl fs, htree⟩
        · rename_i hfree
          obtain ⟨hp, hq⟩ := checkPair_eq_none hfree
          have hmore := fs.createDirectories_more A
          have htree₁ := htree.createDirectories A
          split
          · exact ⟨hmore.keeps, htree₁⟩
          · have hmore' := hmore.trans ((fs.createDirectories A).2.createDirectories_more B)
            have htree₂ := htree₁.createDirectories B
            split
            · exact ⟨hmore'.keeps, htree₂⟩
            · -- the two files are not there, and the folders have not revealed them
              have hkeeps := writePair_keeps nl pair
                (fun _ ht => outputTarget_fresh hmore' htree (parts_privatePath hA (i + 1)) hp ht)
                (fun _ ht => outputTarget_fresh hmore' htree (parts_publicPath hB (i + 1)) hq ht)
              obtain ⟨hrest, htree'⟩ := ih (i + 1) _ (writePair_tree nl htree₂ _ _ pair)
              exact ⟨(hmore'.keeps.trans hkeeps).trans hrest, htree'⟩

/-- `WriteMergedKeys` without `force` keeps every entry. -/
theorem merged_keeps (nl : Newline) (P Q : StdString) (pairs : List KeyPair) (htree : fs.Tree) :
    FileSystem.Keeps fs (writeMergedKeys nl P Q false pairs fs).disk ∧
      (writeMergedKeys nl P Q false pairs fs).disk.Tree := by
  by_cases hfree : refusal false (Path.ofString P) (Path.ofString Q) fs = none
  · have hframe := merged_frame nl P Q false pairs fs
    obtain ⟨hp, hq⟩ := checkPair_eq_none hfree
    have hfresh : ∀ {p : Path} {loc : Location}, fs.pathExists p = some false →
        fs.outputTarget p = some loc → fs.node loc = none := by
      intro p loc hnot ht
      rw [FileSystem.pathExists, (FileSystem.outputTarget_eq_some.mp ht).1, FileSystem.answer,
        Option.some.injEq] at hnot
      simpa using hnot
    exact ⟨FileSystem.keeps_of_writesOnly hframe fun _ hloc => hloc.elim (hfresh hp) (hfresh hq),
      htree.writesOnly hframe fun _ hloc => hloc.elim htree.outputTarget htree.outputTarget⟩
  · obtain ⟨e, he⟩ := merged_refused nl pairs hfree
    rw [he]
    exact ⟨.refl fs, htree⟩

/-- One run of `main` with `--force=false`. The folders are always `private`
and `public`. -/
theorem writeKeys_keeps (nl : Newline) {o : Options} (ho : o.force = some false)
    (pairs : List KeyPair) (htree : fs.Tree) :
    FileSystem.Keeps fs (writeKeys nl (Config.ofOptions o) pairs fs).disk ∧
      (writeKeys nl (Config.ofOptions o) pairs fs).disk.Tree := by
  have hforce : (Config.ofOptions o).force = false := by simp [Config.ofOptions, ho]
  unfold writeKeys
  rw [hforce]
  split
  · exact merged_keeps nl _ _ pairs htree
  · exact loop_keeps nl (A := Path.ofString ['p', 'r', 'i', 'v', 'a', 't', 'e'])
      (B := Path.ofString ['p', 'u', 'b', 'l', 'i', 'c']) (by decide) (by decide) pairs 0 [] htree

/-- A key that is read before the change is read after it. -/
theorem readKey_keeps (h : FileSystem.Keeps fs fs') {p : Path} {key : List UInt8}
    (hread : readKey nl fs p = .ok key) : readKey nl fs' p = .ok key := by
  unfold readKey at hread ⊢
  cases hopen : fs.openInput p with
  | nothing =>
      rw [hopen] at hread
      cases hread
  | directory =>
      rw [hopen] at hread
      cases nl <;> cases hread
  | file raw =>
      rw [hopen] at hread
      obtain ⟨loc, hres, hbytes⟩ := openInput_eq_file.mp hopen
      have hbytes' : fs'.bytesAt loc = some raw := by
        unfold FileSystem.bytesAt at hbytes ⊢
        cases hn : fs.node loc with
        | none =>
            rw [hn] at hbytes
            cases hbytes
        | some n =>
            rw [hn] at hbytes
            rw [h.eq_some hn]
            exact hbytes
      rw [openInput_eq_file.mpr ⟨loc, h.grows.resolve_ok hres, hbytes'⟩]
      exact hread

/-- In every history of runs with `--force=false`, however each of them ends,
no entry of the disk is ever changed or removed, and a key that could be read
is read as it was. -/
theorem unforced_runs_keep (htree : fs.Tree)
    (h : (keygen nl fs).Reach (fun _ run => run.1.force = some false) fs') :
    (∀ loc n, fs.node loc = some n → fs'.node loc = some n) ∧
      ∀ p key, readKey nl fs p = .ok key → readKey nl fs' p = .ok key := by
  suffices hkeeps : FileSystem.Keeps fs fs' ∧ fs'.Tree from
    ⟨fun _ _ => hkeeps.1.eq_some, fun _ _ hread => readKey_keeps hkeeps.1 hread⟩
  induction h with
  | start h0 =>
      rw [h0]
      exact ⟨.refl _, htree⟩
  | next _ hforce hstep ih =>
      obtain rfl := Option.some.inj hstep
      obtain ⟨hmore, htree'⟩ := writeKeys_keeps nl hforce _ ih.2
      exact ⟨ih.1.trans hmore, htree'⟩

/-- The default folder with one private key. -/
def diskWithKey : FileSystem :=
  (emptyDisk.put [['p', 'r', 'i', 'v', 'a', 't', 'e']] .directory).put
    [['p', 'r', 'i', 'v', 'a', 't', 'e'], privateName 1] (.file examplePair.privateKey)

theorem emptyDisk_tree : emptyDisk.Tree :=
  ⟨emptyDisk_plain.linkFree, rfl, fun loc name hnode => absurd (by simp [emptyDisk]) hnode⟩

theorem diskWithKey_tree : diskWithKey.Tree := by
  have hfolder := emptyDisk_tree.put [] ['p', 'r', 'i', 'v', 'a', 't', 'e'] .directory rfl rfl
    (.inl rfl)
  exact hfolder.put [['p', 'r', 'i', 'v', 'a', 't', 'e']] (privateName 1)
    (.file examplePair.privateKey) rfl (by decide +kernel) (.inr (by decide +kernel))

/-- A refused run, and a run that writes merged files. -/
def unforcedRuns : List (Options × List KeyPair) :=
  [({ noOptions with force := some false }, [examplePair]),
    ({ noOptions with
        force := some false, merge := some true, publicKeyMergedFile := some ['p']
        privateKeyMergedFile := some ['s'] }, [examplePair])]

theorem unforced_runs_keep_one : ∃ disk,
    (keygen .posix diskWithKey).run diskWithKey unforcedRuns = some disk ∧
      disk.pathExists (Path.ofString ['s']) = some true ∧
      readKey .posix disk (privatePath (Path.ofString ['p', 'r', 'i', 'v', 'a', 't', 'e']) 1) =
        .ok examplePair.privateKey := by
  obtain ⟨disk, hrun⟩ := Option.isSome_iff_exists.mp (by decide +kernel :
    ((keygen .posix diskWithKey).run diskWithKey unforcedRuns).isSome = true)
  have hreach : (keygen .posix diskWithKey).Reach (fun _ run => run.1.force = some false) disk :=
    .run (.start rfl) (.of_forall (by simp [unforcedRuns]) _) hrun
  have hexists : ((keygen .posix diskWithKey).run diskWithKey unforcedRuns).any
      (fun disk => disk.pathExists (Path.ofString ['s']) = some true) = true := by decide +kernel
  rw [hrun] at hexists
  exact ⟨disk, hrun, by simpa using hexists,
    (unforced_runs_keep diskWithKey_tree hreach).2 _ _ (by decide +kernel)⟩

/-! ## Runs that write separate files -/

/-- The run writes separate files, returns, and no stream fails. -/
def WritesSeparate (nl : Newline) (fs : FileSystem) (run : Options × List KeyPair) : Prop :=
  (Config.ofOptions run.1).merge = false ∧
    (writeKeys nl (Config.ofOptions run.1) run.2 fs).outcome = .returned ∧
    ∀ c ∈ (writeKeys nl (Config.ofOptions run.1) run.2 fs).closed, c.2 = true

/-- The default folders. -/
def privateFolder : Path := Path.ofString ['p', 'r', 'i', 'v', 'a', 't', 'e']
def publicFolder : Path := Path.ofString ['p', 'u', 'b', 'l', 'i', 'c']

/-- However a run ends, it has only made directories and written files. -/
theorem writeKeys_grows (nl : Newline) (cfg : Config) (pairs : List KeyPair) (fs : FileSystem) :
    FileSystem.Grows fs (writeKeys nl cfg pairs fs).disk := by
  unfold writeKeys
  split
  · exact (merged_frame nl _ _ _ pairs fs).same.grows
  · exact (separateRun nl _ _ _ pairs fs).grows

/-- Such a run has stored its keys. -/
theorem SeparateRun.stored_all {force : Bool} {r : Report}
    (hrun : SeparateRun nl force A B pairs fs r) (hplain : fs.Plain)
    (hret : r.outcome = .returned) (hgood : ∀ c ∈ r.closed, c.2 = true)
    {f : Path × List UInt8} (hf : f ∈ outputs A B 1 pairs) : Stored nl r.disk f.1 f.2 := by
  have hne : pairs ≠ [] := by
    rintro rfl
    cases hf
  obtain ⟨fs', h⟩ := hrun.succeeded hret hgood hne
  exact hrun.stored hf (h.mem_closed hf) (.inl hplain)

/-- A file of a higher number stays as it was. -/
theorem SeparateRun.stored_later {force : Bool} {r : Report}
    (hrun : SeparateRun nl force A B pairs fs r) (hplain : fs.Plain)
    (hret : r.outcome = .returned) (hgood : ∀ c ∈ r.closed, c.2 = true) {i : Nat}
    (hi : pairs.length ≤ i) {p : Path} (hp : HasNumber A B (i + 1) p) {text : List UInt8}
    (hstored : Stored nl fs p text) : Stored nl r.disk p text := by
  by_cases hnil : pairs = []
  · cases hrun with
    | empty _ hr => exact hr ▸ hstored
    | refused e _ hr => exact hr ▸ hstored
    | noFolders _ _ houtcome _ _ => cases hret.symm.trans houtcome
    | ran fs' k _ _ hk hran =>
        have hle := hran.le
        rw [hnil, List.length_nil] at hle
        omega
  · obtain ⟨fs', h⟩ := hrun.succeeded hret hgood hnil
    have hmore := moreDirectories_withFolders h.folders
    have hfree := hplain.linkFree.grows hmore.grows
    obtain ⟨loc, hres, hbytes⟩ := hstored
    have hres' := hmore.grows.resolve_ok hres
    have hnot : ¬ ∃ f ∈ outputs A B 1 pairs, fs'.outputTarget f.1 = some loc := by
      rintro ⟨f, hf, hloc⟩
      obtain ⟨j, -, hlt, hj⟩ := outputs_hasNumber hf
      have hnumber := ((ready_withFolders h.folders).path_unique hfree hj hp
        (FileSystem.outputTarget_eq_some.mp hloc).1 hres').2
      omega
    refine ⟨loc, (h.same.resolve p).trans hres', ?_⟩
    -- the folders are not made where there is a file
    have hnode : fs'.node loc = fs.node loc := by
      refine (hmore.node loc).resolve_right fun hmade => ?_
      unfold FileSystem.bytesAt at hbytes
      rw [hmade.1] at hbytes
      cases hbytes
    unfold FileSystem.bytesAt at hbytes ⊢
    rw [h.ran.frame.node loc hnot, hnode]
    exact hbytes

/-- What one run does to the files of number `i + 1`. -/
theorem run_files {run : Options × List KeyPair} (hplain : fs.Plain)
    (h : WritesSeparate nl fs run) (i : Nat) :
    let disk := (writeKeys nl (Config.ofOptions run.1) run.2 fs).disk
    (∀ pair, run.2[i]? = some pair →
      Stored nl disk (privatePath privateFolder (i + 1)) pair.privateKey ∧
        Stored nl disk (publicPath publicFolder (i + 1)) pair.publicKey) ∧
    (run.2[i]? = none → ∀ p text, HasNumber privateFolder publicFolder (i + 1) p →
      Stored nl fs p text → Stored nl disk p text) := by
  obtain ⟨hmerge, hret, hgood⟩ := h
  unfold writeKeys at hret hgood ⊢
  rw [hmerge] at hret hgood ⊢
  have hrun := separateRun nl (Config.ofOptions run.1).force privateFolder publicFolder run.2 fs
  refine ⟨fun pair hpair => ?_, fun hnone p text hp hstored => ?_⟩
  · obtain ⟨hi, rfl⟩ := List.getElem?_eq_some_iff.mp hpair
    obtain ⟨hprivate, hpublic⟩ := mem_outputs (A := privateFolder) (B := publicFolder) (k := 1) hi
    rw [Nat.add_comm i 1]
    exact ⟨hrun.stored_all hplain hret hgood hprivate, hrun.stored_all hplain hret hgood hpublic⟩
  · exact hrun.stored_later hplain hret hgood (List.getElem?_eq_none_iff.mp hnone) hp hstored

/-- Runs without a pair of number `i + 1` leave its files as they are. -/
theorem runs_stored_later {disk : FileSystem} {runs : List (Options × List KeyPair)} {i : Nat}
    (hplain : fs.Plain) (hok : (keygen nl disk).Meets (WritesSeparate nl) fs runs)
    (hrun : (keygen nl disk).run fs runs = some fs')
    (hnone : runs.filterMap (fun run => run.2[i]?) = []) {p : Path} {text : List UInt8}
    (hp : HasNumber privateFolder publicFolder (i + 1) p) (hstored : Stored nl fs p text) :
    Stored nl fs' p text := by
  induction runs generalizing fs with
  | nil =>
      obtain rfl := Option.some.inj hrun
      exact hstored
  | cons run runs ih =>
      obtain ⟨hnow, hlater⟩ := hok
      rw [List.filterMap_eq_nil_iff, List.forall_mem_cons] at hnone
      exact ih (hplain.grows (writeKeys_grows nl _ _ fs)) (hlater _ rfl) hrun
        (List.filterMap_eq_nil_iff.mpr hnone.2)
        ((run_files hplain hnow i).2 hnone.1 p text hp hstored)

/-- The files of number `i + 1` hold the keys of the last run that had them. -/
theorem runs_stored {disk : FileSystem} {before after : List (Options × List KeyPair)}
    {run : Options × List KeyPair} {i : Nat} {pair : KeyPair} (hplain : fs.Plain)
    (hpair : run.2[i]? = some pair) (hnone : ∀ run ∈ after, run.2[i]? = none)
    (hok : (keygen nl disk).Meets (WritesSeparate nl) fs (before ++ run :: after))
    (hrun : (keygen nl disk).run fs (before ++ run :: after) = some fs') :
    Stored nl fs' (privatePath privateFolder (i + 1)) pair.privateKey ∧
      Stored nl fs' (publicPath publicFolder (i + 1)) pair.publicKey := by
  induction before generalizing fs with
  | nil =>
      obtain ⟨hnow, hlater⟩ := hok
      have hplain' := hplain.grows (writeKeys_grows nl (Config.ofOptions run.1) run.2 fs)
      obtain ⟨hprivate, hpublic⟩ := (run_files hplain hnow i).1 pair hpair
      have hafter := List.filterMap_eq_nil_iff.mpr hnone
      exact ⟨runs_stored_later hplain' (hlater _ rfl) hrun hafter (.inl rfl) hprivate,
        runs_stored_later hplain' (hlater _ rfl) hrun hafter (.inr rfl) hpublic⟩
  | cons run' before ih =>
      exact ih (hplain.grows (writeKeys_grows nl _ _ fs)) (hok.2 _ rfl) hrun

/-- The last run that had a pair of number `i + 1`. -/
theorem last_with_pair {runs : List (Options × List KeyPair)} {i : Nat} {pair : KeyPair}
    (hlast : (runs.filterMap fun run => run.2[i]?).getLast? = some pair) :
    ∃ before run after, runs = before ++ run :: after ∧ run.2[i]? = some pair ∧
      ∀ run ∈ after, run.2[i]? = none := by
  rw [List.getLast?_filterMap, List.findSome?_eq_some_iff] at hlast
  obtain ⟨after, run, before, hsplit, hpair, hnone⟩ := hlast
  refine ⟨before.reverse, run, after.reverse, ?_, hpair, fun run hmem => ?_⟩
  · rw [← List.reverse_reverse runs, hsplit]
    simp
  · exact hnone run (List.mem_reverse.mp hmem)

/-- On a plain disk, after any history of runs that write separate files and
succeed, the two files of number `i + 1` hold the keys of one pair, the `i`-th
of the last run that had so many. -/
theorem last_run_stored {disk : FileSystem} {runs : List (Options × List KeyPair)}
    (hplain : fs.Plain) (hok : (keygen nl disk).Meets (WritesSeparate nl) fs runs)
    (hrun : (keygen nl disk).run fs runs = some fs') (i : Nat) (pair : KeyPair)
    (hlast : (runs.filterMap fun run => run.2[i]?).getLast? = some pair) :
    Stored nl fs' (privatePath privateFolder (i + 1)) pair.privateKey ∧
      Stored nl fs' (publicPath publicFolder (i + 1)) pair.publicKey := by
  obtain ⟨before, run, after, rfl, hpair, hnone⟩ := last_with_pair hlast
  exact runs_stored hplain hpair hnone hok hrun

/-- A run with two pairs, then a run with one: the second pair of the first
run is still there. -/
theorem last_run_stored_shorter : ∃ disk,
    (keygen .posix emptyDisk).run emptyDisk
      [(noOptions, [examplePair, examplePair]), (noOptions, [⟨[1], [2]⟩])] = some disk ∧
      (Stored .posix disk (privatePath privateFolder 2) examplePair.privateKey ∧
        Stored .posix disk (publicPath publicFolder 2) examplePair.publicKey) ∧
      Stored .posix disk (privatePath privateFolder 1) [1] ∧
        Stored .posix disk (publicPath publicFolder 1) [2] := by
  have hok : (keygen .posix emptyDisk).Meets (WritesSeparate .posix) emptyDisk
      [(noOptions, [examplePair, examplePair]), (noOptions, [⟨[1], [2]⟩])] := by
    refine ⟨⟨rfl, by decide +kernel, by decide +kernel⟩, fun _ h => ?_⟩
    obtain rfl := Option.some.inj h
    exact ⟨⟨rfl, by decide +kernel, by decide +kernel⟩, fun _ _ => trivial⟩
  obtain ⟨disk, hrun⟩ : ∃ disk, (keygen .posix emptyDisk).run emptyDisk
      [(noOptions, [examplePair, examplePair]), (noOptions, [⟨[1], [2]⟩])] = some disk := ⟨_, rfl⟩
  exact ⟨disk, hrun, last_run_stored emptyDisk_plain hok hrun 1 examplePair rfl,
    last_run_stored emptyDisk_plain hok hrun 0 ⟨[1], [2]⟩ rfl⟩

/-! ## Merged files -/

end PacketDistribution.Keys
