/-
PacketDistribution.Keys.RefusalTheorems — what a writer has done to the disk
when it refuses to overwrite a key file.

`WriteMergedKeys` checks both names before it opens either. The check of
`WriteSeparateKeys` is in the loop, behind the folders and the files of the
pairs before.

* `unchangedIfRefused_iff`: a refusal leaves the disk as it was exactly when
  the first pair is refused, or nothing could be created before the pair that
  is. A file of the refused pair may have been created by the call itself,
  through a link.
-/
import PacketDistribution.Keys.MergedTheorems

namespace PacketDistribution.Keys

open PacketDistribution.Lib

variable {nl : Newline} {fs fs' : FileSystem} {A B : Path} {pairs : List KeyPair} {r : Report}

/-- If the call ended because a key file was there, the disk is as it was. -/
def UnchangedIfRefused (fs : FileSystem) (r : Report) : Prop :=
  ∀ what, r.outcome = .threw (.runtimeError what) → r.disk = fs

/-- No stream can be opened on the files of number `i`. -/
def Unopenable (fs : FileSystem) (A B : Path) (i : Nat) : Prop :=
  ∀ p, HasNumber A B i p → fs.outputTarget p = none

/-- Of the pairs after the first and up to `n`, that of number `j` is the
first whose check throws, and it throws because a file is there. -/
structure FirstRefused (fs : FileSystem) (A B : Path) (n j : Nat) (what : String) : Prop where
  after : 1 < j
  counted : j ≤ n ∧ (j : Int) ≤ intMax
  refused : refusalAt false fs A B 0 j = some (.runtimeError what)
  first : ∀ k, 1 < k → k < j → refusalAt false fs A B 0 k = none

/-- The check of the first pair throws; or no later check finds a file, once
both folders exist; or before the pair whose check does, neither folder was
missing and no file could be opened. -/
def RefusedInTime (A B : Path) (pairs : List KeyPair) (fs : FileSystem) : Prop :=
  refusal false (privatePath A 1) (publicPath B 1) fs ≠ none ∨
    ∀ fs' j what, withFolders fs A B = some fs' → FirstRefused fs' A B pairs.length j what →
      fs' = fs ∧ ∀ k, 0 < k → k < j → Unopenable fs A B k

/-! ## The loop -/

namespace Ran

variable {k : Nat}

/-- The pair behind the last one that was written is the one refused. -/
theorem refused_iff (h : Ran nl false A B fs 0 [] pairs k r) (hk : 0 < k) {what : String} :
    r.outcome = .threw (.runtimeError what) ↔ FirstRefused fs A B pairs.length (k + 1) what := by
  constructor
  · intro hthrew
    rcases h.ending with ⟨-, hbad⟩ | ⟨-, -, hbad⟩ | ⟨hlt, hcount, e, he, houtcome⟩
    · rw [hthrew] at hbad
      cases hbad
    · rw [hthrew] at hbad
      cases hbad
    · rw [houtcome] at hthrew
      obtain rfl := Outcome.threw.inj hthrew
      rw [Nat.zero_add] at he
      exact ⟨by omega, ⟨hlt, by push_cast; omega⟩, he,
        fun j hgt hlt' => h.passed j (by omega) hgt (by omega)⟩
  · intro hfirst
    obtain ⟨hlen, hmax⟩ := hfirst.counted
    push_cast at hmax
    rcases h.ending with ⟨hall, -⟩ | ⟨-, hcount, -⟩ | ⟨-, -, e, he, houtcome⟩
    · omega
    · omega
    · rw [Nat.zero_add, hfirst.refused] at he
      rw [houtcome, ← Option.some.inj he]

theorem firstRefused_unique (h : Ran nl false A B fs 0 [] pairs k r) (hk : 0 < k) {j : Nat}
    {what : String} (hj : FirstRefused fs A B pairs.length j what) : j = k + 1 := by
  have hafter := hj.after
  obtain ⟨hlen, hmax⟩ := hj.counted
  have hlt : k < j := by
    by_contra hle
    have hpassed := h.passed j (by omega) hafter (by omega)
    rw [hj.refused] at hpassed
    cases hpassed
  by_contra hne
  -- otherwise the loop would have stopped before `j`
  rcases h.ending with ⟨hall, -⟩ | ⟨-, hcount, -⟩ | ⟨-, -, e, he, -⟩
  · omega
  · omega
  · rw [Nat.zero_add, hj.first (k + 1) (by omega) (by omega)] at he
    cases he

/-- Behind checks that all passed, the disk is as it was before the folders
exactly when nothing was created. -/
theorem disk_eq_iff (h : Ran nl false A B fs' 0 [] pairs k r)
    (hmore : FileSystem.MoreDirectories fs fs')
    (hfirst : refusal false (privatePath A 1) (publicPath B 1) fs = none) :
    r.disk = fs ↔ fs' = fs ∧ ∀ j, 0 < j → j ≤ k → Unopenable fs A B j := by
  have htake : ∀ {p : Path}, (∃ f ∈ outputs A B 1 (pairs.take k), f.1 = p) ↔
      ∃ j, 0 < j ∧ j ≤ k ∧ HasNumber A B j p := by
    intro p
    rw [exists_mem_outputs, List.length_take_of_le h.le]
    exact exists_congr fun j => by rw [Nat.succ_le_iff, Nat.add_comm 1 k, Nat.lt_succ_iff]
  rw [h.disk]
  constructor
  · intro hdisk
    have hsame := (writePairs_frame nl A B (pairs.take k) 1 fs').same
    rw [hdisk] at hsame
    obtain rfl : fs' = fs := hmore.eq_of_directory fun loc hdir => (hsame.directory loc).mpr hdir
    refine ⟨rfl, fun j hpos hle p hp => ?_⟩
    by_contra hopen
    obtain ⟨loc, hloc⟩ := Option.ne_none_iff_exists'.mp hopen
    have hpassed : refusalAt false fs' A B 0 j = none := by
      by_cases hone : j = 1
      · rw [hone, refusalAt_next]
        exact hfirst
      · exact h.passed j hpos (by omega) (by omega)
    obtain ⟨f, hf, rfl⟩ := htake.mpr ⟨j, hpos, hle, hp⟩
    have hsome := (writePairs_isSome nl A B (pairs.take k) loc 1 fs').mpr (.inr ⟨f, hf, hloc⟩)
    rw [hdisk, node_of_passed hpassed hp hloc] at hsome
    cases hsome
  · rintro ⟨rfl, hall⟩
    refine (writePairs_frame nl A B (pairs.take k) 1 fs').eq_of_none fun loc ⟨f, hf, hloc⟩ => ?_
    obtain ⟨j, hpos, hle, hj⟩ := htake.mp ⟨f, hf, rfl⟩
    rw [hall j hpos hle f.1 hj] at hloc
    cases hloc

end Ran

/-! ## The whole call -/

/-- `WriteSeparateKeys` leaves the disk as it was when it refuses exactly
when it refuses in time. -/
theorem SeparateRun.unchanged_iff (hrun : SeparateRun nl false A B pairs fs r) :
    UnchangedIfRefused fs r ↔ RefusedInTime A B pairs fs := by
  cases hrun with
  | empty hnil hr =>
      subst hnil hr
      refine ⟨fun _ => .inr fun fs' j what _ hj => ?_, fun _ what hthrew => by cases hthrew⟩
      have hlen := hj.counted.1
      have hgt := hj.after
      rw [List.length_nil] at hlen
      omega
  | refused e hnow hr =>
      exact ⟨fun _ => .inl (by rw [hnow]; exact nofun), fun _ _ _ => congrArg Report.disk hr⟩
  | noFolders hfree hfolders houtcome hclosed hmore =>
      refine ⟨fun _ => .inr fun fs' j what hfs' _ => ?_, fun _ what hthrew => ?_⟩
      · rw [hfolders] at hfs'
        cases hfs'
      · rw [houtcome] at hthrew
        cases hthrew
  | ran fs' k hfree hfolders hk hran =>
      have hdisk := hran.disk_eq_iff (moreDirectories_withFolders hfolders) hfree
      constructor
      · intro h
        refine .inr fun fs'' j what hfs'' hj => ?_
        obtain rfl := Option.some.inj (hfolders.symm.trans hfs'')
        obtain rfl := hran.firstRefused_unique hk hj
        obtain ⟨heq, hall⟩ := hdisk.mp (h what ((hran.refused_iff hk).mpr hj))
        exact ⟨heq, fun i hpos hlt => hall i hpos (by omega)⟩
      · rintro (hnow | h) what hthrew
        · exact absurd hfree hnow
        · obtain ⟨heq, hall⟩ := h fs' (k + 1) what hfolders ((hran.refused_iff hk).mp hthrew)
          exact hdisk.mpr ⟨heq, fun i hpos hle => hall i hpos (by omega)⟩

/-- `WriteMergedKeys` always leaves it as it was. -/
theorem merged_unchanged (nl : Newline) (P Q : StdString) (force : Bool) (pairs : List KeyPair)
    (fs : FileSystem) : UnchangedIfRefused fs (writeMergedKeys nl P Q force pairs fs) := by
  intro what hthrew
  by_cases hfree : refusal force (Path.ofString P) (Path.ofString Q) fs = none
  · rw [(merged_returned nl pairs hfree).1] at hthrew
    cases hthrew
  · obtain ⟨e, he⟩ := merged_refused nl pairs hfree
    rw [he]

/-- Called without `force`, both writers leave the disk as it was when they
refuse, if and only if `WriteSeparateKeys` refuses in time. -/
theorem unchangedIfRefused_iff (nl : Newline) (A B P Q : StdString) (pairs : List KeyPair)
    (fs : FileSystem) :
    (UnchangedIfRefused fs (writeSeparateKeys nl A B false pairs fs) ∧
      UnchangedIfRefused fs (writeMergedKeys nl P Q false pairs fs)) ↔
      RefusedInTime (Path.ofString A) (Path.ofString B) pairs fs := by
  rw [and_iff_left (merged_unchanged nl P Q false pairs fs)]
  exact (separateRun nl false _ _ pairs fs).unchanged_iff

/-- A folder in which the private key of the first pair is a link to that of
the second: the call creates it, and refuses. -/
example :
    let disk := (emptyDisk.put [['k']] .directory).put [['k'], privateName 1]
      (.symlink (Path.ofString (privateName 2)))
    (writeSeparateKeys .posix ['k'] ['k'] false [examplePair, examplePair] disk).outcome =
      .threw (.runtimeError "Private key file already exists") := by
  decide +kernel

/-- A disk with an empty folder `k` and the public key of a second pair. -/
def diskWithSecondKey : FileSystem :=
  ((emptyDisk.put [['k']] .directory).put [['k'], publicName 2] (.file []))

/-- The second pair is refused after the first one was written. -/
theorem first_pair_left_behind :
    let r := writeSeparateKeys .posix ['k'] ['k'] false [examplePair, examplePair] diskWithSecondKey
    r.outcome = .threw (.runtimeError "Public key file already exists") ∧
      diskWithSecondKey.node [['k'], privateName 1] = none ∧
      r.disk.node [['k'], privateName 1] = some (.file examplePair.privateKey) ∧
      ¬ UnchangedIfRefused diskWithSecondKey r := by
  intro r
  have hthrew : r.outcome = .threw (.runtimeError "Public key file already exists") := by
    decide +kernel
  have hbefore : diskWithSecondKey.node [['k'], privateName 1] = none := by decide +kernel
  have hafter : r.disk.node [['k'], privateName 1] = some (.file examplePair.privateKey) := by
    decide +kernel
  refine ⟨hthrew, hbefore, hafter, fun h => ?_⟩
  rw [h _ hthrew, hbefore] at hafter
  cases hafter

end PacketDistribution.Keys
