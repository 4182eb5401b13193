/-
PacketDistribution.Keys.NoLossTheorems — when `main` does not lose keys
silently.

Neither writer asks a stream whether it has failed. What they promise holds
of exactly those calls that throw for another reason, or in which every file
can hold its keys and no two texts are written to one file
(`noSilentLoss_iff`). With links, several names may lead to one file.
-/
import PacketDistribution.Keys.MergedTheorems

namespace PacketDistribution.Keys

open PacketDistribution.Lib

variable {nl : Newline} {fs : FileSystem} {pairs : List KeyPair} {r : Report}
variable {files : List (Path × List UInt8)}

/-- The files of a configuration, with their texts. -/
def Config.outputs (cfg : Config) (pairs : List KeyPair) : List (Path × List UInt8) :=
  if cfg.merge then
    mergedOutputs (Path.ofString cfg.privateKeyMergedFile)
      (Path.ofString cfg.publicKeyMergedFile) pairs
  else
    Keys.outputs (Path.ofString cfg.privateKeyOutputFolder)
      (Path.ofString cfg.publicKeyOutputFolder) 1 pairs

/-- No key of these files is lost silently: a call that returns has stored
them all, and a call with a stream that has failed throws. -/
structure NoSilentLoss (nl : Newline) (files : List (Path × List UInt8)) (r : Report) : Prop where
  stored : r.outcome = .returned → ∀ f ∈ files, Stored nl r.disk f.1 f.2
  throws : (∃ p, (p, false) ∈ r.closed) → ∃ e, r.outcome = .threw e
  defined : r.outcome ≠ .undefined

/-- Every file can hold its text, and where two names lead to one file their
texts are the same. -/
structure FilesSafe (nl : Newline) (fs : FileSystem) (files : List (Path × List UInt8)) :
    Prop where
  hold : ∀ f ∈ files, canHold nl fs f.1 f.2 = true
  oneText : ∀ f ∈ files, ∀ g ∈ files, fs.outputTarget f.1 = fs.outputTarget g.1 → f.2 = g.2

/-- One file holds one text, and a device holds none. -/
theorem filesSafe_of_stored {disk : FileSystem} (hsame : FileSystem.SameNames fs disk)
    (htakes : ∀ f ∈ files, takes nl fs f.1 f.2 = true)
    (hstored : ∀ f ∈ files, Stored nl disk f.1 f.2) : FilesSafe nl fs files := by
  have hplace : ∀ f ∈ files, ∃ loc, fs.outputTarget f.1 = some loc ∧
      (nl.encode f.2).length ≤ fs.room loc ∧ disk.bytesAt loc = some (nl.encode f.2) := by
    intro f hf
    obtain ⟨loc, hloc, hroom⟩ := takes_eq_true.mp (htakes f hf)
    obtain ⟨loc', hres, hbytes⟩ := hstored f hf
    rw [hsame.resolve, (FileSystem.outputTarget_eq_some.mp hloc).1] at hres
    obtain rfl := Except.ok.inj hres
    exact ⟨loc, hloc, hroom, hbytes⟩
  refine ⟨fun f hf => ?_, fun f hf g hg heq => ?_⟩
  · obtain ⟨loc, hloc, hroom, hbytes⟩ := hplace f hf
    refine canHold_eq_true.mpr ⟨loc, hloc, hroom, fun hdev => ?_⟩
    have hempty : disk.bytesAt loc = some [] := by
      unfold FileSystem.bytesAt
      rw [(hsame.device loc).mpr hdev]
    rw [hempty] at hbytes
    exact Newline.encode_injective nl ((Option.some.inj hbytes).symm.trans (nl.encode_nil).symm)
  · obtain ⟨loc, hloc, -, hbytes⟩ := hplace f hf
    obtain ⟨loc', hloc', -, hbytes'⟩ := hplace g hg
    obtain rfl := Option.some.inj (hloc.symm.trans (heq.trans hloc'))
    exact Newline.encode_injective nl (Option.some.inj (hbytes.symm.trans hbytes'))

namespace NoSilentLoss

/-- A call that throws has said so. -/
theorem of_threw (h : ∃ e, r.outcome = .threw e) : NoSilentLoss nl files r := by
  obtain ⟨e, he⟩ := h
  refine ⟨fun hret => ?_, fun _ => ⟨e, he⟩, ?_⟩
  · rw [he] at hret
    cases hret
  · rw [he]
    intro hbad
    cases hbad

/-- In a call that returns every stream has to be good. -/
theorem takes (h : NoSilentLoss nl files r) (hret : r.outcome = .returned)
    (hclosed : r.closed = files.map fun f => (f.1, Keys.takes nl fs f.1 f.2)) :
    ∀ f ∈ files, Keys.takes nl fs f.1 f.2 = true := by
  intro f hf
  cases htakes : Keys.takes nl fs f.1 f.2 with
  | true => rfl
  | false =>
      have hmem : (f.1, false) ∈ r.closed := by
        rw [hclosed, ← htakes]
        exact List.mem_map_of_mem hf
      obtain ⟨e, he⟩ := h.throws ⟨f.1, hmem⟩
      rw [hret] at he
      cases he

/-- A call that returns, with only good streams, has to have stored the
keys. -/
theorem of_returned (hret : r.outcome = .returned)
    (hclosed : r.closed = files.map fun f => (f.1, Keys.takes nl fs f.1 f.2))
    (htakes : ∀ f ∈ files, Keys.takes nl fs f.1 f.2 = true)
    (hstored : ∀ f ∈ files, Stored nl r.disk f.1 f.2) : NoSilentLoss nl files r := by
  refine ⟨fun _ => hstored, ?_, ?_⟩
  · rintro ⟨p, hp⟩
    rw [hclosed] at hp
    obtain ⟨f, hf, heq⟩ := List.mem_map.mp hp
    obtain ⟨-, hbad⟩ := Prod.mk.inj heq
    rw [htakes f hf] at hbad
    cases hbad
  · rw [hret]
    intro hbad
    cases hbad

/-- A call that returns loses nothing silently exactly when its files are
safe. -/
theorem iff_filesSafe (hret : r.outcome = .returned)
    (hclosed : r.closed = files.map fun f => (f.1, Keys.takes nl fs f.1 f.2))
    (hsame : FileSystem.SameNames fs r.disk)
    (hstored : FilesSafe nl fs files → ∀ f ∈ files, Stored nl r.disk f.1 f.2) :
    NoSilentLoss nl files r ↔ FilesSafe nl fs files := by
  constructor
  · intro h
    exact filesSafe_of_stored hsame (h.takes hret hclosed) (h.stored hret)
  · intro hsafe
    exact of_returned hret hclosed (fun f hf => takes_of_canHold (hsafe.hold f hf))
      (hstored hsafe)

end NoSilentLoss

/-! ## `WriteMergedKeys` -/

/-- The check throws; or both files can hold their keys, and if they are one
file both texts are the same. -/
def MergedSafe (nl : Newline) (p q : Path) (force : Bool) (pairs : List KeyPair)
    (fs : FileSystem) : Prop :=
  refusal force p q fs ≠ none ∨ FilesSafe nl fs (mergedOutputs p q pairs)

theorem merged_noSilentLoss_iff (nl : Newline) (P Q : StdString) (force : Bool)
    (pairs : List KeyPair) (fs : FileSystem) :
    NoSilentLoss nl (mergedOutputs (Path.ofString P) (Path.ofString Q) pairs)
        (writeMergedKeys nl P Q force pairs fs) ↔
      MergedSafe nl (Path.ofString P) (Path.ofString Q) force pairs fs := by
  by_cases hfree : refusal force (Path.ofString P) (Path.ofString Q) fs = none
  · obtain ⟨hret, hclosed⟩ := merged_returned nl pairs hfree
    have hiff := NoSilentLoss.iff_filesSafe hret hclosed (merged_frame nl P Q force pairs fs).same
      fun hsafe => merged_stored hfree hsafe.hold
        (hsafe.oneText _ List.mem_cons_self _ (List.mem_cons_of_mem _ List.mem_cons_self))
    rw [hiff, MergedSafe, or_iff_right (not_not.mpr hfree)]
  · obtain ⟨e, he⟩ := merged_refused nl pairs hfree
    exact ⟨fun _ => .inl hfree, fun _ => .of_threw ⟨e, congrArg Report.outcome he⟩⟩

/-! ## `WriteSeparateKeys` -/

/-- There are no keys; or the call throws before it comes to an end; or the
counter can count the pairs and, with both folders there, every file can hold
its key and no two keys that differ have one file. -/
def SeparateSafe (nl : Newline) (A B : Path) (force : Bool) (pairs : List KeyPair)
    (fs : FileSystem) : Prop :=
  pairs = [] ∨ Refused force A B pairs fs ∨
    (pairs.length : Int) ≤ intMax ∧ ∃ fs', withFolders fs A B = some fs' ∧
      FilesSafe nl fs' (outputs A B 1 pairs)

/-- Safe files of a run of the loop get their keys. -/
theorem Ran.stored_of_safe {A B : Path} {force : Bool} {k : Nat}
    (h : Ran nl force A B fs 0 [] pairs k r) (hret : r.outcome = .returned)
    (hsafe : FilesSafe nl fs (outputs A B 1 pairs)) :
    ∀ f ∈ outputs A B 1 pairs, Stored nl r.disk f.1 f.2 := by
  intro f hf
  obtain ⟨loc, hloc, hfits⟩ := canHold_eq_true.mp (hsafe.hold f hf)
  refine h.stored hf ?_ fun loc' hloc' => ?_
  · rw [(h.closed_of_returned hret).2, ← takes_of_canHold (hsafe.hold f hf)]
    exact List.mem_map_of_mem hf
  · obtain rfl := Option.some.inj (hloc.symm.trans hloc')
    exact ⟨hfits.device, fun g hg hgloc => hsafe.oneText g hg f hf (hgloc.trans hloc.symm)⟩

theorem separate_noSilentLoss_iff (nl : Newline) (P Q : StdString) (force : Bool)
    (pairs : List KeyPair) (fs : FileSystem) :
    NoSilentLoss nl (outputs (Path.ofString P) (Path.ofString Q) 1 pairs)
        (writeSeparateKeys nl P Q force pairs fs) ↔
      SeparateSafe nl (Path.ofString P) (Path.ofString Q) force pairs fs := by
  unfold writeSeparateKeys
  generalize Path.ofString P = A
  generalize Path.ofString Q = B
  by_cases hnil : pairs = []
  · subst hnil
    exact ⟨fun _ => .inl rfl, fun _ => ⟨fun _ f hf => (by cases hf),
      fun ⟨p, hp⟩ => (by cases hp), fun hbad => (by cases hbad)⟩⟩
  · have hrun := separateRun nl force A B pairs fs
    generalize writeSeparateKeysFrom nl A B force 0 [] pairs fs = r at hrun ⊢
    by_cases hrefused : Refused force A B pairs fs
    · exact ⟨fun _ => .inr (.inl hrefused), fun _ => .of_threw (hrun.threw hnil hrefused)⟩
    · obtain ⟨fs', k, hfs', hran, hend⟩ := hrun.completes hnil hrefused
      rw [SeparateSafe, or_iff_right hnil, or_iff_right hrefused]
      rcases hend with hret | ⟨hover, hundefined⟩
      · obtain ⟨hlen, hclosed⟩ := hran.closed_of_returned hret
        rw [NoSilentLoss.iff_filesSafe hret hclosed hran.frame.same (hran.stored_of_safe hret)]
        refine ⟨fun hsafe => ⟨hlen, fs', hfs', hsafe⟩, fun ⟨_, fs'', hfs'', hsafe⟩ => ?_⟩
        obtain rfl := Option.some.inj (hfs'.symm.trans hfs'')
        exact hsafe
      · exact ⟨fun h => absurd hundefined h.defined, fun ⟨hlen, _⟩ => by omega⟩

/-! ## `main` -/

/-- The condition of the writer that `main` calls. -/
def KeysSafe (nl : Newline) (cfg : Config) (pairs : List KeyPair) (fs : FileSystem) : Prop :=
  if cfg.merge then
    MergedSafe nl (Path.ofString cfg.privateKeyMergedFile) (Path.ofString cfg.publicKeyMergedFile)
      cfg.force pairs fs
  else
    SeparateSafe nl (Path.ofString cfg.privateKeyOutputFolder)
      (Path.ofString cfg.publicKeyOutputFolder) cfg.force pairs fs

/-- No key is lost silently exactly when the call throws for another reason,
or every file can hold its keys and no two texts are written to one file. -/
theorem noSilentLoss_iff (nl : Newline) (cfg : Config) (pairs : List KeyPair) (fs : FileSystem) :
    NoSilentLoss nl (cfg.outputs pairs) (writeKeys nl cfg pairs fs) ↔
      KeysSafe nl cfg pairs fs := by
  unfold Config.outputs writeKeys KeysSafe
  cases cfg.merge with
  | true => exact merged_noSilentLoss_iff nl _ _ cfg.force pairs fs
  | false => exact separate_noSilentLoss_iff nl _ _ cfg.force pairs fs

/-- The default folder with a link `private1.pem` to the public key file of
the same pair. -/
example :
    let disk := (emptyDisk.put [['p', 'r', 'i', 'v', 'a', 't', 'e']] .directory).put
      [['p', 'r', 'i', 'v', 'a', 't', 'e'], privateName 1]
      (.symlink (Path.ofString
        ['.', '.', '/', 'p', 'u', 'b', 'l', 'i', 'c', '/', 'p', 'u', 'b', 'l', 'i', 'c', '1', '.', 'p', 'e', 'm']))
    let r := writeKeys .posix (Config.ofOptions noOptions) [examplePair] disk
    r.outcome = .returned ∧ r.closed.all Prod.snd = true ∧
      r.disk.node [['p', 'u', 'b', 'l', 'i', 'c'], publicName 1] =
        some (.file examplePair.publicKey) := by
  decide +kernel

/-- With `--merge true` and no file names the call returns, no stream was
ever good, and the disk is as it was. -/
theorem merge_without_names :
    let cfg := Config.ofOptions { noOptions with merge := some true }
    let r := writeKeys .posix cfg [examplePair] emptyDisk
    r.outcome = .returned ∧ r.closed = [(Path.ofString [], false), (Path.ofString [], false)] ∧
      r.disk = emptyDisk ∧ ¬ NoSilentLoss .posix (cfg.outputs [examplePair]) r := by
  intro cfg r
  have hreturned : r.outcome = .returned := by decide +kernel
  have hclosed : r.closed = [(Path.ofString [], false), (Path.ofString [], false)] := by
    decide +kernel
  refine ⟨hreturned, hclosed, rfl, fun h => ?_⟩
  obtain ⟨e, he⟩ := h.throws ⟨Path.ofString [], by rw [hclosed]; exact List.mem_cons_self⟩
  rw [hreturned] at he
  cases he

end PacketDistribution.Keys
