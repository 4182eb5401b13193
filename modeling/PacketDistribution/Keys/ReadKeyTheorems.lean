/-
PacketDistribution.Keys.ReadKeyTheorems — what `read_key` makes of the files
`WriteSeparateKeys` wrote.

`read_key` sizes the key by the raw file and fills it from the text. The two
agree unless the platform writes a line feed as two bytes and the key has
one (`readKey_eq_iff`); then every line feed leaves a zero byte at the end
(`readKey_stored`).

On a plain disk every file of a call is its own. Where there are links or
devices, that is asked of the file (`HasOwnFile`).
-/
import PacketDistribution.Keys.WriterTheorems

namespace PacketDistribution.Keys

open PacketDistribution.Lib

variable {nl : Newline} {fs : FileSystem}

/-- The bytes by which the raw file is longer than its text. -/
def extraBytes (nl : Newline) (text : List UInt8) : Nat :=
  match nl with
  | .posix => 0
  | .windows => text.count Newline.lf

theorem length_encode (nl : Newline) (text : List UInt8) :
    (nl.encode text).length = text.length + extraBytes nl text := by
  cases nl with
  | posix => rfl
  | windows => exact Newline.length_encodeCrLf text

theorem extraBytes_eq_zero {nl : Newline} {text : List UInt8} :
    extraBytes nl text = 0 ↔ nl = .posix ∨ Newline.lf ∉ text := by
  cases nl with
  | posix => simp [extraBytes]
  | windows => simp [extraBytes, List.count_eq_zero]

theorem openInput_eq_file {p : Path} {bytes : List UInt8} :
    fs.openInput p = .file bytes ↔
      ∃ loc, fs.resolve p = .ok loc ∧ fs.bytesAt loc = some bytes := by
  unfold FileSystem.openInput FileSystem.bytesAt
  cases fs.resolve p with
  | error e => simp
  | ok loc =>
      simp only [Except.ok.injEq, exists_eq_left']
      cases fs.node loc with
      | none => simp
      | some n => cases n <;> simp

/-- A key that is on disk is read with one zero byte for every extra byte of
its file. -/
theorem readKey_stored {p : Path} {text : List UInt8} (h : Stored nl fs p text) :
    readKey nl fs p = .ok (text ++ List.replicate (extraBytes nl text) 0) := by
  have hopen : fs.openInput p = .file (nl.encode text) := openInput_eq_file.mpr h
  have hlen := length_encode nl text
  have htake : text.take (nl.encode text).length = text := List.take_of_length_le (by omega)
  have hrest : (nl.encode text).length - text.length = extraBytes nl text := by omega
  simp only [readKey, hopen, Newline.decode_encode, htake, hrest]

/-- It is read as it was written exactly when its file has no extra bytes. -/
theorem readKey_eq_iff {p : Path} {text : List UInt8} (h : Stored nl fs p text) :
    readKey nl fs p = .ok text ↔ nl = .posix ∨ Newline.lf ∉ text := by
  rw [readKey_stored h, Except.ok.injEq, List.append_right_eq_self, List.replicate_eq_nil_iff]
  exact extraBytes_eq_zero

/-- No other of these files is the one the path names, and it is no device. -/
def HasOwnFile (disk : FileSystem) (files : List (Path × List UInt8)) (p : Path) : Prop :=
  ∃ loc, disk.resolve p = .ok loc ∧ disk.node loc ≠ some .device ∧
    ∀ g ∈ files, disk.resolve g.1 = .ok loc → g.1 = p

/-- However the call ends, a key that was written with success is on disk. -/
theorem SeparateRun.stored {A B : Path} {force : Bool} {pairs : List KeyPair} {r : Report}
    (hrun : SeparateRun nl force A B pairs fs r) {f : Path × List UInt8}
    (hf : f ∈ outputs A B 1 pairs) (hgood : (f.1, true) ∈ r.closed)
    (hown : fs.Plain ∨ HasOwnFile r.disk (outputs A B 1 pairs) f.1) :
    Stored nl r.disk f.1 f.2 := by
  cases hrun with
  | empty hnil hr =>
      rw [hr] at hgood
      cases hgood
  | refused e hnow hr =>
      rw [hr] at hgood
      cases hgood
  | noFolders hfree hfolders houtcome hclosed hmore =>
      rw [hclosed] at hgood
      cases hgood
  | ran fs' k hfree hfolders hk hran =>
      refine hran.stored hf hgood fun loc hloc => ?_
      have hres := (FileSystem.outputTarget_eq_some.mp hloc).1
      rcases hown with hplain | ⟨loc', hres', hdevice, hown⟩
      · have hplain' := hplain.grows (moreDirectories_withFolders hfolders).grows
        refine ⟨fun hdev => absurd hdev (hplain'.device loc), fun g hg hgloc => ?_⟩
        rw [(ready_withFolders hfolders).target_unique hplain'.linkFree hf hg hloc hgloc]
      · have hsame := hran.frame.same
        obtain rfl := Except.ok.inj (hres'.symm.trans ((hsame.resolve _).trans hres))
        refine ⟨fun hdev => absurd ((hsame.device loc').mpr hdev) hdevice, fun g hg hgloc => ?_⟩
        have hpath := hown g hg
          ((hsame.resolve _).trans (FileSystem.outputTarget_eq_some.mp hgloc).1)
        rw [outputs_path_unique hg hf hpath]

/-- However the call ends, a key that was written with success, on a plain
disk or into a file of its own, is read as it was generated exactly when the
platform does not translate line feeds or the key has none. -/
theorem readKey_written_iff (nl : Newline)
    (privateKeyOutputFolder publicKeyOutputFolder : StdString) (force : Bool)
    (pairs : List KeyPair) (fs : FileSystem) :
    let r := writeSeparateKeys nl privateKeyOutputFolder publicKeyOutputFolder force pairs fs
    let files := outputs (Path.ofString privateKeyOutputFolder)
      (Path.ofString publicKeyOutputFolder) 1 pairs
    ∀ f ∈ files, (f.1, true) ∈ r.closed → fs.Plain ∨ HasOwnFile r.disk files f.1 →
      (readKey nl r.disk f.1 = .ok f.2 ↔ nl = .posix ∨ Newline.lf ∉ f.2) := by
  intro r files f hf hgood hown
  exact readKey_eq_iff ((separateRun nl force _ _ pairs fs).stored hf hgood hown)

/-- On POSIX, a call with the default folders. -/
theorem readKey_written_posix :
    let cfg := Config.ofOptions noOptions
    let r := writeKeys .posix cfg [examplePair] emptyDisk
    readKey .posix r.disk (privatePath (Path.ofString cfg.privateKeyOutputFolder) 1)
        = .ok examplePair.privateKey ∧
      readKey .posix r.disk (publicPath (Path.ofString cfg.publicKeyOutputFolder) 1)
        = .ok examplePair.publicKey := by
  intro cfg r
  have hr : r = writeSeparateKeys .posix cfg.privateKeyOutputFolder cfg.publicKeyOutputFolder
      cfg.force [examplePair] emptyDisk := if_neg (by decide)
  rw [hr]
  have hread := readKey_written_iff .posix cfg.privateKeyOutputFolder cfg.publicKeyOutputFolder
    cfg.force [examplePair] emptyDisk
  exact ⟨(hread (privatePath (Path.ofString cfg.privateKeyOutputFolder) 1,
      examplePair.privateKey) (by decide +kernel) (by decide +kernel)
      (.inl emptyDisk_plain)).mpr (.inl rfl),
    (hread (publicPath (Path.ofString cfg.publicKeyOutputFolder) 1,
      examplePair.publicKey) (by decide +kernel) (by decide +kernel)
      (.inl emptyDisk_plain)).mpr (.inl rfl)⟩

/-- On Windows a key of three lines is read with three zero bytes at its
end. -/
theorem readKey_pads_key :
    let cfg := Config.ofOptions noOptions
    let r := writeKeys .windows cfg [examplePair] emptyDisk
    let path := privatePath (Path.ofString cfg.privateKeyOutputFolder) 1
    r.outcome = .returned ∧ (path, true) ∈ r.closed ∧
      readKey .windows r.disk path = .ok (examplePair.privateKey ++ [0, 0, 0]) ∧
      readKey .windows r.disk path ≠ .ok examplePair.privateKey := by
  decide +kernel

end PacketDistribution.Keys
