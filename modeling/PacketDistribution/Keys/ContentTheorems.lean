/-
PacketDistribution.Keys.ContentTheorems — what the key files hold after a
call that returned and none of whose streams failed.

Files are byte sequences here: the newline convention is the one that leaves
newlines alone.

* `separate_keysOnDisk_iff`: without links, `WriteSeparateKeys` has written
  the pairs and nothing else, over no file if `force` is off, unless a key file
  is a device or the folders it creates reveal a file of the first pair, whose
  check was made before.
* `merged_exact_iff`: `WriteMergedKeys` keeps its promise unless both names
  are one file that it goes on to write, or one is a device.
-/
import PacketDistribution.Keys.NoLossTheorems

namespace PacketDistribution.Keys

open PacketDistribution.Lib

variable {fs fs' : FileSystem} {A B : Path} {pairs : List KeyPair} {force : Bool} {r : Report}

/-! ## `WriteSeparateKeys` -/

/-- The path names a file with exactly these bytes. -/
def Holds (fs : FileSystem) (p : Path) (key : List UInt8) : Prop :=
  ∃ loc, fs.resolve p = .ok loc ∧ fs.node loc = some (.file key)

/-- The disk after a call on `pairs`, beside the disk before it. Numbers run
from 1; `HasNumber A B i` are the two paths of the `i`-th pair. -/
structure KeysOnDisk (A B : Path) (force : Bool) (pairs : List KeyPair)
    (before after : FileSystem) : Prop where
  /-- each file holds exactly its key -/
  keys : ∀ i (hi : i < pairs.length),
    Holds after (privatePath A (i + 1)) pairs[i].privateKey ∧
      Holds after (publicPath B (i + 1)) pairs[i].publicKey
  /-- no two paths name one file -/
  distinct : ∀ i j p q loc, i < pairs.length → j < pairs.length →
    HasNumber A B (i + 1) p → HasNumber A B (j + 1) q →
    after.resolve p = .ok loc → after.resolve q = .ok loc → p = q ∧ i = j
  /-- every other file is as it was -/
  others : ∀ loc, (∀ i p, i < pairs.length → HasNumber A B (i + 1) p →
      after.resolve p ≠ .ok loc) →
    ∀ bytes, after.node loc = some (.file bytes) ↔ before.node loc = some (.file bytes)
  /-- without `force` there was nothing where the files are now -/
  absent : force = false → ∀ i p loc, i < pairs.length → HasNumber A B (i + 1) p →
    after.resolve p = .ok loc → before.node loc = none

/-- With both folders there, no key file is a device. -/
def NoDevice (A B : Path) (pairs : List KeyPair) (fs : FileSystem) : Prop :=
  ∀ fs' f loc, withFolders fs A B = some fs' → f ∈ outputs A B 1 pairs →
    fs'.resolve f.1 = .ok loc → fs'.node loc ≠ some .device

/-- The check of the first pair also passes once both folders are there. -/
def PassesAgain (A B : Path) (force : Bool) (pairs : List KeyPair) (fs : FileSystem) : Prop :=
  pairs ≠ [] → ∀ fs', withFolders fs A B = some fs' →
    refusal force (privatePath A 1) (publicPath B 1) fs' = none

/-- The files of the `i`-th pair, counted from the number the list starts at. -/
theorem mem_outputs {i : Nat} :
    ∀ {pairs : List KeyPair} {k : Nat} (hi : i < pairs.length),
      (privatePath A (k + i), pairs[i].privateKey) ∈ outputs A B k pairs ∧
        (publicPath B (k + i), pairs[i].publicKey) ∈ outputs A B k pairs := by
  induction i with
  | zero =>
      intro pairs k hi
      cases pairs with
      | nil => cases hi
      | cons pair pairs => simp [outputs]
  | succ i ih =>
      intro pairs k hi
      cases pairs with
      | nil => cases hi
      | cons pair pairs =>
          obtain ⟨hprivate, hpublic⟩ := ih (k := k + 1) (Nat.lt_of_succ_lt_succ hi)
          rw [show k + (i + 1) = k + 1 + i by omega]
          exact ⟨.tail _ (.tail _ hprivate), .tail _ (.tail _ hpublic)⟩

theorem exists_mem_outputs_number {i : Nat} {p : Path} (hi : i < pairs.length)
    (hp : HasNumber A B (i + 1) p) : ∃ f ∈ outputs A B 1 pairs, f.1 = p :=
  exists_mem_outputs.mpr ⟨i + 1, by omega, by omega, hp⟩

/-- A call that returned, none of whose streams has failed: the first check
has passed, and with both folders there every file took its key. -/
structure Succeeded (nl : Newline) (force : Bool) (A B : Path) (pairs : List KeyPair)
    (fs fs' : FileSystem) (r : Report) : Prop where
  first : refusal force (privatePath A 1) (publicPath B 1) fs = none
  folders : withFolders fs A B = some fs'
  ran : Ran nl force A B fs' 0 [] pairs pairs.length r
  closed : r.closed = (outputs A B 1 pairs).map fun f => (f.1, takes nl fs' f.1 f.2)
  takes : ∀ f ∈ outputs A B 1 pairs, takes nl fs' f.1 f.2 = true

theorem SeparateRun.succeeded {nl : Newline} (hrun : SeparateRun nl force A B pairs fs r)
    (hret : r.outcome = .returned) (hgood : ∀ c ∈ r.closed, c.2 = true) (hne : pairs ≠ []) :
    ∃ fs', Succeeded nl force A B pairs fs fs' r := by
  cases hrun with
  | empty hnil hr => exact absurd hnil hne
  | refused e hnow hr =>
      rw [hr] at hret
      cases hret
  | noFolders hfree hfolders houtcome hclosed hmore =>
      rw [houtcome] at hret
      cases hret
  | ran fs' k hfree hfolders hk hran =>
      have hclosed := (hran.closed_of_returned hret).2
      obtain rfl : k = pairs.length := by
        rcases hran.ending with ⟨hall, -⟩ | ⟨-, -, hbad⟩ | ⟨-, -, e, -, hbad⟩
        · exact hall
        · cases hret.symm.trans hbad
        · cases hret.symm.trans hbad
      refine ⟨fs', hfree, hfolders, hran, hclosed, fun f hf => ?_⟩
      rw [hclosed] at hgood
      exact hgood _ (List.mem_map_of_mem hf)

namespace Succeeded

variable {nl : Newline}

theorem same (h : Succeeded nl force A B pairs fs fs' r) : FileSystem.SameNames fs' r.disk :=
  h.ran.frame.same

theorem mem_closed (h : Succeeded nl force A B pairs fs fs' r) {f : Path × List UInt8}
    (hf : f ∈ outputs A B 1 pairs) : (f.1, true) ∈ r.closed := by
  rw [h.closed, ← h.takes f hf]
  exact List.mem_map_of_mem hf

/-- A path of the call leads to what a stream was opened on. -/
theorem target (h : Succeeded nl force A B pairs fs fs' r) {i : Nat} {p : Path} {loc : Location}
    (hi : i < pairs.length) (hp : HasNumber A B (i + 1) p) (hres : r.disk.resolve p = .ok loc) :
    fs'.outputTarget p = some loc := by
  obtain ⟨f, hf, rfl⟩ := exists_mem_outputs_number hi hp
  obtain ⟨loc', hloc', -⟩ := takes_eq_true.mp (h.takes f hf)
  have hres' := (FileSystem.outputTarget_eq_some.mp hloc').1
  rw [← h.same.resolve, hres] at hres'
  rwa [Except.ok.inj hres']

/-- Making the folders has put no entry where a stream was opened. -/
theorem node_eq (h : Succeeded nl force A B pairs fs fs' r) {p : Path} {loc : Location}
    (hloc : fs'.outputTarget p = some loc) : fs'.node loc = fs.node loc := by
  refine (moreDirectories_withFolders h.folders).node_of_ne fun hdir => ?_
  have hopens := (FileSystem.outputTarget_eq_some.mp hloc).2.1
  rw [hdir] at hopens
  cases hopens

/-- Without links each file that is no device holds its key. -/
theorem holds (h : Succeeded .posix force A B pairs fs fs' r) (hfree : fs'.LinkFree)
    {f : Path × List UInt8} (hf : f ∈ outputs A B 1 pairs)
    (hdevice : ∀ loc, fs'.resolve f.1 = .ok loc → fs'.node loc ≠ some .device) :
    Holds r.disk f.1 f.2 := by
  have hready := ready_withFolders h.folders
  have hstored : Stored .posix r.disk f.1 f.2 := by
    refine h.ran.stored hf (h.mem_closed hf) fun loc hloc => ⟨fun hdev => ?_, fun g hg hgloc => ?_⟩
    · exact absurd hdev (hdevice loc (FileSystem.outputTarget_eq_some.mp hloc).1)
    · rw [hready.target_unique hfree hf hg hloc hgloc]
  obtain ⟨loc, hres, hbytes⟩ := hstored
  refine ⟨loc, hres, ?_⟩
  have hdev : r.disk.node loc ≠ some .device := by
    rw [ne_eq, h.same.device]
    rw [h.same.resolve] at hres
    exact hdevice loc hres
  unfold FileSystem.bytesAt at hbytes
  split at hbytes
  · rename_i hfile
    rw [hfile, Option.some.inj hbytes]
    rfl
  · exact absurd ‹_› hdev
  · cases hbytes

theorem keysOnDisk_iff (h : Succeeded .posix force A B pairs fs fs' r) (hfree : fs.LinkFree)
    (hne : pairs ≠ []) :
    KeysOnDisk A B force pairs fs r.disk ↔
      NoDevice A B pairs fs ∧ PassesAgain A B force pairs fs := by
  have hready := ready_withFolders h.folders
  have hmore := moreDirectories_withFolders h.folders
  have hfree' := hfree.grows hmore.grows
  have hpos : 0 < pairs.length := List.length_pos_iff.mpr hne
  constructor
  · intro hkeys
    refine ⟨fun fs'' f loc hfolders hf hres hdev => ?_, fun _ fs'' hfolders => ?_⟩
    · obtain rfl := Option.some.inj (h.folders.symm.trans hfolders)
      obtain ⟨j, hge, hlt, hj⟩ := outputs_hasNumber hf
      obtain ⟨i, rfl⟩ : ∃ i, j = i + 1 := ⟨j - 1, by omega⟩
      obtain ⟨hprivate, hpublic⟩ := hkeys.keys i (by omega)
      have hholds : ∃ key, Holds r.disk f.1 key := by
        rcases hj with hp | hq
        · exact ⟨_, hp ▸ hprivate⟩
        · exact ⟨_, hq ▸ hpublic⟩
      obtain ⟨key, loc', hres', hfile⟩ := hholds
      rw [h.same.resolve, hres] at hres'
      obtain rfl := Except.ok.inj hres'
      rw [(h.same.device loc).mpr hdev] at hfile
      cases hfile
    · obtain rfl := Option.some.inj (h.folders.symm.trans hfolders)
      cases hforce : force with
      | true => rfl
      | false =>
          -- there was nothing where the two files are
          have hnot : ∀ p, HasNumber A B 1 p → fs'.pathExists p = some false := by
            intro p hp
            obtain ⟨f, hf, rfl⟩ := exists_mem_outputs_number hpos hp
            obtain ⟨loc, hloc, -⟩ := takes_eq_true.mp (h.takes f hf)
            have hres := (FileSystem.outputTarget_eq_some.mp hloc).1
            have hnone := hkeys.absent hforce 0 f.1 loc hpos hp ((h.same.resolve _).trans hres)
            simp [FileSystem.pathExists, FileSystem.answer, hres, h.node_eq hloc, hnone]
          simp [refusal, checkPair, hnot _ (.inl rfl), hnot _ (.inr rfl), checkAnswer]
  · rintro ⟨hdevice, hagain⟩
    refine ⟨fun i hi => ?_, fun i j p q loc hi hj hp hq hresp hresq => ?_,
      fun loc hloc bytes => ?_, fun hforce i p loc hi hp hres => ?_⟩
    · obtain ⟨hprivate, hpublic⟩ := mem_outputs (A := A) (B := B) (k := 1) hi
      rw [Nat.add_comm i 1]
      exact ⟨h.holds hfree' hprivate fun loc => hdevice fs' _ loc h.folders hprivate,
        h.holds hfree' hpublic fun loc => hdevice fs' _ loc h.folders hpublic⟩
    · rw [h.same.resolve] at hresp hresq
      obtain ⟨hpq, hij⟩ := hready.path_unique hfree' hp hq hresp hresq
      exact ⟨hpq, Nat.succ.inj hij⟩
    · have hown : ¬ ∃ f ∈ outputs A B 1 pairs, fs'.outputTarget f.1 = some loc := by
        rintro ⟨f, hf, htarget⟩
        obtain ⟨j, hge, hlt, hj⟩ := outputs_hasNumber hf
        obtain ⟨i, rfl⟩ : ∃ i, j = i + 1 := ⟨j - 1, by omega⟩
        exact hloc i f.1 (by omega) hj
          ((h.same.resolve _).trans (FileSystem.outputTarget_eq_some.mp htarget).1)
      rw [h.ran.frame.node loc hown]
      rcases hmore.node loc with heq | ⟨hnone, hdir⟩
      · rw [heq]
      · simp [hnone, hdir]
    · subst hforce
      have htarget := h.target hi hp hres
      rw [← h.node_eq htarget]
      refine node_of_passed (i := i + 1) ?_ hp htarget
      by_cases hzero : i = 0
      · subst hzero
        rw [refusalAt_next]
        exact hagain hne fs' h.folders
      · exact h.ran.passed (i + 1) (by omega) (by omega) (by omega)

end Succeeded

/-- On a disk without links, a call that returned, with no stream failed, has
written every pair, one key to a file, and nothing else, over no file if
`force` is off, exactly when no key file is a device and the folders, once
created, do not reveal a file of the first pair. -/
theorem separate_keysOnDisk_iff (P Q : StdString) (force : Bool) (pairs : List KeyPair)
    (fs : FileSystem) (hfree : fs.LinkFree)
    (hret : (writeSeparateKeys .posix P Q force pairs fs).outcome = .returned)
    (hgood : ∀ c ∈ (writeSeparateKeys .posix P Q force pairs fs).closed, c.2 = true) :
    KeysOnDisk (Path.ofString P) (Path.ofString Q) force pairs fs
        (writeSeparateKeys .posix P Q force pairs fs).disk ↔
      NoDevice (Path.ofString P) (Path.ofString Q) pairs fs ∧
        PassesAgain (Path.ofString P) (Path.ofString Q) force pairs fs := by
  unfold writeSeparateKeys at hret hgood ⊢
  generalize Path.ofString P = A at hret hgood ⊢
  generalize Path.ofString Q = B at hret hgood ⊢
  by_cases hne : pairs = []
  · subst hne
    refine ⟨fun _ => ⟨fun fs' f loc _ hf => (by cases hf), fun hbad => absurd rfl hbad⟩,
      fun _ => ⟨fun i hi => ?_, fun i j p q loc hi => ?_, fun _ _ _ => Iff.rfl,
        fun _ i p loc hi => ?_⟩⟩ <;> cases hi
  · obtain ⟨fs', h⟩ := (separateRun .posix force A B pairs fs).succeeded hret hgood hne
    exact h.keysOnDisk_iff hfree hne

/-- Two pairs, on an empty disk, to one folder. -/
theorem separate_keysOnDisk_two :
    KeysOnDisk (Path.ofString ['k']) (Path.ofString ['k']) false [examplePair, examplePair] emptyDisk
      (writeSeparateKeys .posix ['k'] ['k'] false [examplePair, examplePair] emptyDisk).disk := by
  refine (separate_keysOnDisk_iff ['k'] ['k'] false [examplePair, examplePair] emptyDisk
    emptyDisk_plain.linkFree (by decide +kernel) (by decide +kernel)).mpr ⟨?_, ?_⟩
  · intro fs' f loc hfolders _ _
    exact (emptyDisk_plain.grows (moreDirectories_withFolders hfolders).grows).device loc
  · intro _ fs' hfolders
    have hcheck : (withFolders emptyDisk (Path.ofString ['k']) (Path.ofString ['k'])).all
        (fun fs' => refusal false (privatePath (Path.ofString ['k']) 1)
          (publicPath (Path.ofString ['k']) 1) fs' = none) = true := by decide +kernel
    rw [hfolders] at hcheck
    simpa using hcheck

/-- A disk with the folder `k` and a file `private1.pem` in it, and no `x`. -/
def diskWithFirstKey : FileSystem :=
  (emptyDisk.put [['k']] .directory).put [['k'], privateName 1] (.file [7])

/-- The check of `x/../k/private1.pem` finds nothing, since `x` is missing.
Then `x` is created, and the file is written over. -/
theorem created_folder_reveals_key :
    let folder := ['x', '/', '.', '.', '/', 'k']
    let r := writeSeparateKeys .posix folder folder false [examplePair] diskWithFirstKey
    diskWithFirstKey.LinkFree ∧ r.outcome = .returned ∧ r.closed.all Prod.snd = true ∧
      diskWithFirstKey.node [['k'], privateName 1] = some (.file [7]) ∧
      r.disk.node [['k'], privateName 1] = some (.file examplePair.privateKey) ∧
      ¬ KeysOnDisk (Path.ofString folder) (Path.ofString folder) false [examplePair]
        diskWithFirstKey r.disk := by
  intro folder r
  have hplain : diskWithFirstKey.Plain :=
    (emptyDisk_plain.put [['k']] (n := .directory) rfl nofun).put _ (n := .file [7]) rfl nofun
  refine ⟨hplain.linkFree, by decide +kernel, by decide +kernel, by decide +kernel,
    by decide +kernel, fun h => ?_⟩
  have hres : r.disk.resolve (privatePath (Path.ofString folder) 1) =
      .ok [['k'], privateName 1] := by decide +kernel
  have hnone := h.absent rfl 0 _ _ (by decide) (.inl rfl) hres
  rw [show diskWithFirstKey.node [['k'], privateName 1] = some (.file [7]) by decide +kernel]
    at hnone
  cases hnone

/-! ## `WriteMergedKeys` -/

/-- Both paths lead to one place that is no directory. -/
def SameFile (fs : FileSystem) (p q : Path) : Prop :=
  ∃ loc, fs.resolve p = .ok loc ∧ fs.resolve q = .ok loc ∧ fs.node loc ≠ some .directory

/-- What a call on the paths `p` and `q` promises. -/
structure MergedExact (p q : Path) (pairs : List KeyPair) (before : FileSystem) (r : Report) :
    Prop where
  /-- if it returned and no stream failed, each file holds its keys in order,
  a newline after each, and no other file changed -/
  keys : r.outcome = .returned → (∀ c ∈ r.closed, c.2 = true) →
    Stored .posix r.disk p (mergedText KeyPair.privateKey pairs) ∧
      Stored .posix r.disk q (mergedText KeyPair.publicKey pairs) ∧
      ∀ loc, r.disk.resolve p ≠ .ok loc → r.disk.resolve q ≠ .ok loc →
        r.disk.node loc = before.node loc
  /-- if the paths name one file it is refused and changes nothing -/
  refused : SameFile before p q → (∃ e, r.outcome = .threw e) ∧ r.disk = before

/-- What takes its keys also keeps them: it is no device, or given nothing. -/
def TakenIsHeld (p q : Path) (pairs : List KeyPair) (fs : FileSystem) : Prop :=
  (∀ f ∈ mergedOutputs p q pairs, takes .posix fs f.1 f.2 = true) →
    ∀ f ∈ mergedOutputs p q pairs, canHold .posix fs f.1 f.2 = true

/-- `WriteMergedKeys` keeps its promise if and only if its check throws, or
the two paths are not one file and no keys go to a device. -/
theorem merged_exact_iff (P Q : StdString) (force : Bool) (pairs : List KeyPair) (fs : FileSystem) :
    MergedExact (Path.ofString P) (Path.ofString Q) pairs fs
        (writeMergedKeys .posix P Q force pairs fs) ↔
      refusal force (Path.ofString P) (Path.ofString Q) fs ≠ none ∨
        ¬ SameFile fs (Path.ofString P) (Path.ofString Q) ∧
          TakenIsHeld (Path.ofString P) (Path.ofString Q) pairs fs := by
  by_cases hfree : refusal force (Path.ofString P) (Path.ofString Q) fs = none
  · obtain ⟨hreturned, hclosed⟩ := merged_returned .posix pairs hfree
    have hframe := merged_frame .posix P Q force pairs fs
    rw [or_iff_right (not_not.mpr hfree)]
    constructor
    · intro h
      refine ⟨fun hsame => ?_, fun htakes => ?_⟩
      · obtain ⟨⟨e, he⟩, -⟩ := h.refused hsame
        rw [hreturned] at he
        cases he
      · obtain ⟨hprivate, hpublic, -⟩ := h.keys hreturned (by
          rw [hclosed]
          exact List.forall_mem_map.mpr htakes)
        refine (filesSafe_of_stored hframe.same htakes ?_).hold
        simp only [mergedOutputs, List.forall_mem_cons]
        exact ⟨hprivate, hpublic, fun f hf => by cases hf⟩
    · rintro ⟨hsame, hheld⟩
      refine ⟨fun _ hgood => ?_, fun h => absurd h hsame⟩
      rw [hclosed] at hgood
      have hhold := hheld fun f hf => hgood _ (List.mem_map_of_mem hf)
      -- two names of one file would both be open on it
      have hdistinct : fs.outputTarget (Path.ofString P) ≠ fs.outputTarget (Path.ofString Q) := by
        intro heq
        obtain ⟨loc, hloc, -⟩ := canHold_eq_true.mp (hhold _ List.mem_cons_self)
        obtain ⟨hres, hopens, -⟩ := FileSystem.outputTarget_eq_some.mp hloc
        refine hsame ⟨loc, hres, (FileSystem.outputTarget_eq_some.mp (heq ▸ hloc)).1, fun hdir => ?_⟩
        rw [hdir] at hopens
        cases hopens
      have hstored := merged_stored hfree hhold fun heq => absurd heq hdistinct
      simp only [mergedOutputs, List.forall_mem_cons] at hstored
      refine ⟨hstored.1, hstored.2.1, fun loc hp hq => hframe.node loc ?_⟩
      rw [hframe.same.resolve] at hp hq
      rintro (htarget | htarget)
      · exact hp (FileSystem.outputTarget_eq_some.mp htarget).1
      · exact hq (FileSystem.outputTarget_eq_some.mp htarget).1
  · obtain ⟨e, he⟩ := merged_refused .posix pairs hfree
    rw [he]
    refine ⟨fun _ => .inl hfree, fun _ => ⟨fun hret => ?_, fun _ => ⟨⟨e, rfl⟩, rfl⟩⟩⟩
    cases hret

/-- With one name for both files the call returns, both streams are good,
and the public keys have overwritten the private ones. -/
theorem one_name_overwrites :
    let r := writeMergedKeys .posix ['k'] ['k'] true [examplePair] emptyDisk
    r.outcome = .returned ∧ r.closed.all Prod.snd = true ∧
      r.disk.node [['k']] = some (.file (mergedText KeyPair.publicKey [examplePair])) ∧
      ¬ MergedExact (Path.ofString ['k']) (Path.ofString ['k']) [examplePair] emptyDisk r := by
  intro r
  have hreturned : r.outcome = .returned := by decide +kernel
  refine ⟨hreturned, by decide +kernel, by decide +kernel, fun h => ?_⟩
  have hsame : SameFile emptyDisk (Path.ofString ['k']) (Path.ofString ['k']) :=
    ⟨[['k']], by decide +kernel, by decide +kernel, by decide +kernel⟩
  obtain ⟨⟨e, he⟩, -⟩ := h.refused hsame
  rw [hreturned] at he
  cases he

end PacketDistribution.Keys
