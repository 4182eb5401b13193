/-
PacketDistribution.Keys.WriterTheorems — what `WriteSeparateKeys` leaves on
disk.

Writing files changes the meaning of no path, so once both folders exist
(`Ready`) it is known where every stream goes, whatever links there are. The
loop writes a number of pairs, one after the other, and stops (`loop_ran`).
`SeparateRun` says so of the whole call, with every way in which it ends; all
that is proved of the writer is read off it.

The check of a pair finds what was there before the loop and what the rounds
before have created, which with links may well be the pair's own files:
`existsOnce` tells both from the file system the loop starts with.
-/
import PacketDistribution.Keys.Keygen
import PacketDistribution.Lib.FileTree

namespace PacketDistribution.Keys

open PacketDistribution.Lib

variable {nl : Newline} {fs fs' : FileSystem}

/-- A stream can be opened on the path, and what is there takes the text. -/
def takes (nl : Newline) (fs : FileSystem) (p : Path) (text : List UInt8) : Bool :=
  (fs.outputTarget p).any fun loc => (nl.encode text).length ≤ fs.room loc

/-- The same, and it keeps the text: it is no device. -/
def canHold (nl : Newline) (fs : FileSystem) (p : Path) (text : List UInt8) : Bool :=
  (fs.outputTarget p).any fun loc =>
    (nl.encode text).length ≤ fs.room loc ∧ (fs.node loc = some .device → text = [])

theorem takes_eq_true {p : Path} {text : List UInt8} :
    takes nl fs p text = true ↔
      ∃ loc, fs.outputTarget p = some loc ∧ (nl.encode text).length ≤ fs.room loc := by
  unfold takes
  cases fs.outputTarget p <;> simp

/-- A text that fits into the file at a place, and is not lost there. -/
structure Fits (nl : Newline) (fs : FileSystem) (loc : Location) (text : List UInt8) : Prop where
  room : (nl.encode text).length ≤ fs.room loc
  device : fs.node loc = some .device → text = []

theorem Fits.congr {loc : Location} {text : List UInt8} (h : Fits nl fs loc text)
    (hsame : FileSystem.SameNames fs fs') : Fits nl fs' loc text :=
  ⟨by rw [show fs'.room = fs.room from congrArg Setting.room hsame.setting]; exact h.room,
    fun hdev => h.device ((hsame.device loc).mp hdev)⟩

theorem Fits.encoded_device {loc : Location} {text : List UInt8} (h : Fits nl fs loc text)
    (hdev : fs.node loc = some .device) : nl.encode text = [] := by
  rw [h.device hdev, Newline.encode_nil]

theorem canHold_eq_true {p : Path} {text : List UInt8} :
    canHold nl fs p text = true ↔ ∃ loc, fs.outputTarget p = some loc ∧ Fits nl fs loc text := by
  unfold canHold
  rw [Option.any_eq_true]
  simp only [decide_eq_true_eq]
  exact ⟨fun ⟨loc, hloc, hroom, hdev⟩ => ⟨loc, hloc, hroom, hdev⟩,
    fun ⟨loc, hloc, hfits⟩ => ⟨loc, hloc, hfits.room, hfits.device⟩⟩

theorem takes_of_canHold {p : Path} {text : List UInt8} (h : canHold nl fs p text = true) :
    takes nl fs p text = true := by
  obtain ⟨loc, hloc, hfits⟩ := canHold_eq_true.mp h
  exact takes_eq_true.mpr ⟨loc, hloc, hfits.room⟩

theorem takes_congr (h : FileSystem.SameNames fs fs') (p : Path) (text : List UInt8) :
    takes nl fs' p text = takes nl fs p text := by
  unfold takes
  rw [h.outputTarget, show fs'.room = fs.room from congrArg Setting.room h.setting]

/-- A stream that has been given the whole text is good, once flushed, exactly
when its file takes the text. -/
theorem good_eq_takes {s : OutputStream} {p : Path} {text : List UInt8} {fs' : FileSystem}
    (h : s.Fed (fs.outputTarget p) fs.room (0 + (nl.encode text).length))
    (hroom : fs'.room = fs.room) : (s.flush fs').1.good = takes nl fs p text := by
  rw [Bool.eq_iff_iff, (h.flush hroom).2, takes_eq_true]
  simp only [Nat.zero_add]

/-- What is read at the path is exactly this text. -/
def Stored (nl : Newline) (fs : FileSystem) (p : Path) (text : List UInt8) : Prop :=
  ∃ loc, fs.resolve p = .ok loc ∧ fs.bytesAt loc = some (nl.encode text)

/-! ## One pair of files -/

theorem writePair_eq (p q : Path) (pair : KeyPair) :
    writePair nl p q pair fs =
      let privateOpen := fs.openOutput p
      let publicOpen := privateOpen.2.openOutput q
      let privateClosed := (privateOpen.1.write nl pair.privateKey).flush publicOpen.2
      let publicClosed := (publicOpen.1.write nl pair.publicKey).flush privateClosed.2
      (publicClosed.2, [(p, privateClosed.1.good), (q, publicClosed.1.good)]) :=
  rfl

/-- A stream of the pair is good at the end exactly when its file takes the
key. -/
theorem writePair_closed (nl : Newline) (fs : FileSystem) (p q : Path) (pair : KeyPair) :
    (writePair nl p q pair fs).2 =
      [(p, takes nl fs p pair.privateKey), (q, takes nl fs q pair.publicKey)] := by
  obtain ⟨-, -, hopen⟩ := fs.openOutput_frame p
  have hp := (OutputStream.fed_open fs p).write nl pair.privateKey
  have hq := (OutputStream.fed_open (fs.openOutput p).2 q).write nl pair.publicKey
  rw [hopen.same.outputTarget, OutputStream.openOutput_room] at hq
  rw [writePair_eq]
  dsimp only
  rw [good_eq_takes hp (by simp), good_eq_takes hq (by simp)]

/-- Whatever happens, no other file has changed. -/
theorem writePair_frame (nl : Newline) (fs : FileSystem) (p q : Path) (pair : KeyPair) :
    WritesOnly (fun loc => fs.outputTarget p = some loc ∨ fs.outputTarget q = some loc) fs
      (writePair nl p q pair fs).1 := by
  obtain ⟨htarget, hfile, hopen⟩ := fs.openOutput_frame p
  obtain ⟨htarget', hfile', hopen'⟩ := (fs.openOutput p).2.openOutput_frame q
  rw [hopen.same.outputTarget] at htarget' hopen'
  have hclose := OutputStream.flush_frame ((hfile.open_other q).write nl pair.privateKey)
  have hclose' := OutputStream.flush_frame
    ((hfile'.write nl pair.publicKey).flush_other ((fs.openOutput p).1.write nl pair.privateKey))
  simp only [OutputStream.write_target, htarget, htarget'] at hclose hclose'
  refine (((hopen.trans hopen').trans hclose).trans hclose').mono fun loc h => ?_
  tauto

/-- After the round there is something where a stream was opened. -/
theorem writePair_isSome (nl : Newline) (fs : FileSystem) (p q : Path) (pair : KeyPair)
    (loc : Location) :
    ((writePair nl p q pair fs).1.node loc).isSome ↔
      (fs.node loc).isSome ∨ fs.outputTarget p = some loc ∨ fs.outputTarget q = some loc := by
  have hframe := writePair_frame nl fs p q pair
  by_cases hown : fs.outputTarget p = some loc ∨ fs.outputTarget q = some loc
  · refine ⟨fun _ => .inr hown, fun _ => ?_⟩
    -- opening has put a file there, and writing keeps it
    obtain ⟨htarget, hfile, hopen⟩ := fs.openOutput_frame p
    obtain ⟨htarget', hfile', -⟩ := (fs.openOutput p).2.openOutput_frame q
    rw [hopen.same.outputTarget] at htarget'
    have hs := ((hfile.open_other q).write nl pair.privateKey).flush_other
      ((fs.openOutput p).1.write nl pair.privateKey)
    have ht := (hfile'.write nl pair.publicKey).flush_other
      ((fs.openOutput p).1.write nl pair.privateKey)
    have hs' := hs.flush_other (((fs.openOutput p).2.openOutput q).1.write nl pair.publicKey)
    have ht' := ht.flush_other (((fs.openOutput p).2.openOutput q).1.write nl pair.publicKey)
    have hsome : (((writePair nl p q pair fs).1).bytesAt loc).isSome := by
      rcases hown with hp | hq
      · exact hs' loc (by rw [OutputStream.write_target, htarget, hp])
      · exact ht' loc (by rw [OutputStream.write_target, htarget', hq])
    unfold FileSystem.bytesAt at hsome
    split at hsome
    · simp [*]
    · simp [*]
    · cases hsome
  · rw [hframe.node loc hown]
    simp [hown]

section Round

variable {p q : Path} {pair : KeyPair} {l : Location} {text : List UInt8}

/-- The private key is in its file, if that is not the public one too. -/
theorem writePair_private (hp : fs.outputTarget p = some l) (hq : fs.outputTarget q ≠ some l)
    (hfits : Fits nl fs l pair.privateKey) :
    (writePair nl p q pair fs).1.bytesAt l = some (nl.encode pair.privateKey) := by
  obtain ⟨-, -, hopen⟩ := fs.openOutput_frame p
  obtain ⟨htarget, hfile, hopen'⟩ := (fs.openOutput p).2.openOutput_frame q
  rw [hopen.same.outputTarget] at htarget hopen'
  have hopened := (OutputStream.onTrack_open hp hfits.encoded_device).frame (hopen'.node l hq)
  have hwritten := hopened.write nl pair.privateKey (List.prefix_refl _)
  have hroom : (nl.encode pair.privateKey).length ≤
      ((fs.openOutput p).2.openOutput q).2.room l := by
    simpa using hfits.room
  have hclose := OutputStream.flush_frame
    ((hfile.write nl pair.publicKey).flush_other ((fs.openOutput p).1.write nl pair.privateKey))
  rw [OutputStream.write_target, htarget] at hclose
  exact ((hwritten.flush hroom).frame (hclose.node l hq)).finished (hwritten.flush_position hroom)

/-- The public key is in its file, if that is not the private one too. -/
theorem writePair_public (hp : fs.outputTarget p ≠ some l) (hq : fs.outputTarget q = some l)
    (hfits : Fits nl fs l pair.publicKey) :
    (writePair nl p q pair fs).1.bytesAt l = some (nl.encode pair.publicKey) := by
  obtain ⟨htarget, hfile, hopen⟩ := fs.openOutput_frame p
  have hopened := OutputStream.onTrack_open ((hopen.same.outputTarget q).trans hq)
    (hfits.congr hopen.same).encoded_device
  have hwritten := hopened.write nl pair.publicKey (List.prefix_refl _)
  have hclose := OutputStream.flush_frame ((hfile.open_other q).write nl pair.privateKey)
  rw [OutputStream.write_target, htarget] at hclose
  have hheld := hwritten.frame (hclose.node l hp)
  have hroom : (nl.encode pair.publicKey).length ≤
      ((((fs.openOutput p).1.write nl pair.privateKey).flush
        ((fs.openOutput p).2.openOutput q).2).2).room l := by
    simpa using hfits.room
  exact (hheld.flush hroom).finished (hheld.flush_position hroom)

/-- If both streams write one text to one file, it is there. -/
theorem writePair_both (hp : fs.outputTarget p = some l) (hq : fs.outputTarget q = some l)
    (hprivate : pair.privateKey = text) (hpublic : pair.publicKey = text)
    (hfits : Fits nl fs l text) :
    (writePair nl p q pair fs).1.bytesAt l = some (nl.encode text) := by
  obtain ⟨-, -, hopen⟩ := fs.openOutput_frame p
  have hs := ((OutputStream.onTrack_open hp hfits.encoded_device).open_other q).write nl
    pair.privateKey (by rw [hprivate]; exact List.prefix_refl _)
  have ht := (OutputStream.onTrack_open ((hopen.same.outputTarget q).trans hq)
    (hfits.congr hopen.same).encoded_device).write nl pair.publicKey
      (by rw [hpublic]; exact List.prefix_refl _)
  have hroom : (nl.encode text).length ≤ ((fs.openOutput p).2.openOutput q).2.room l := by
    simpa using hfits.room
  have ht' := hs.flush_other ht hroom fun _ => rfl
  have hroom' : (nl.encode text).length ≤
      ((((fs.openOutput p).1.write nl pair.privateKey).flush
        ((fs.openOutput p).2.openOutput q).2).2).room l := by
    simpa using hfits.room
  rw [List.nil_append, hpublic] at ht'
  have hend := (ht'.flush hroom').finished (ht'.flush_position hroom')
  rwa [writePair_eq, hpublic]

/-- A file to which the round writes one text, or which has it and is left
alone, has it after the round. -/
theorem writePair_bytesAt (hp : fs.outputTarget p = some l → pair.privateKey = text)
    (hq : fs.outputTarget q = some l → pair.publicKey = text) (hfits : Fits nl fs l text)
    (hnow : fs.bytesAt l = some (nl.encode text) ∨ fs.outputTarget p = some l ∨
      fs.outputTarget q = some l) :
    (writePair nl p q pair fs).1.bytesAt l = some (nl.encode text) := by
  by_cases hpl : fs.outputTarget p = some l
  · by_cases hql : fs.outputTarget q = some l
    · exact writePair_both hpl hql (hp hpl) (hq hql) hfits
    · obtain rfl := hp hpl
      exact writePair_private hpl hql hfits
  · by_cases hql : fs.outputTarget q = some l
    · obtain rfl := hq hql
      exact writePair_public hpl hql hfits
    · have hnode := (writePair_frame nl fs p q pair).node l (not_or.mpr ⟨hpl, hql⟩)
      unfold FileSystem.bytesAt at hnow ⊢
      rw [hnode]
      simpa [hpl, hql] using hnow

end Round

/-! ## The files of one number -/

/-- The two paths of the `i`-th pair. -/
def privatePath (folder : Path) (i : Nat) : Path := folder.child (privateName i)
def publicPath (folder : Path) (i : Nat) : Path := folder.child (publicName i)

/-- The files of the pairs, numbered from `i` on, with their texts. -/
def outputs (A B : Path) : Nat → List KeyPair → List (Path × List UInt8)
  | _, [] => []
  | i, pair :: pairs =>
      (privatePath A i, pair.privateKey) :: (publicPath B i, pair.publicKey) ::
        outputs A B (i + 1) pairs

/-- The path is one of number `i`. -/
def HasNumber (A B : Path) (i : Nat) (p : Path) : Prop := p = privatePath A i ∨ p = publicPath B i

theorem isOrdinary_privateName (i : Int) : isOrdinary (privateName i) = true := by
  simp [isOrdinary, privateName]

theorem isOrdinary_publicName (i : Int) : isOrdinary (publicName i) = true := by
  simp [isOrdinary, publicName]

theorem privateName_injective {i j : Nat} (h : privateName (i : Int) = privateName (j : Int)) :
    i = j := by
  unfold privateName at h
  exact toStdString_natCast_injective (List.append_cancel_left (List.append_cancel_right h))

theorem publicName_injective {i j : Nat} (h : publicName (i : Int) = publicName (j : Int)) :
    i = j := by
  unfold publicName at h
  exact toStdString_natCast_injective (List.append_cancel_left (List.append_cancel_right h))

theorem privateName_ne_publicName (i j : Int) : privateName i ≠ publicName j := by
  simp [privateName, publicName]

/-- What ends in one name ends in no other. -/
theorem name_eq {a b : List StdString} {m n : StdString} (h : a ++ [m] = b ++ [n]) : m = n :=
  (List.cons.inj (List.append_inj' h rfl).2).1

variable {A B : Path}

/-- The two paths of a pair differ. -/
theorem privatePath_ne_publicPath (A B : Path) (i j : Nat) : privatePath A i ≠ publicPath B j := by
  intro h
  exact privateName_ne_publicName _ _ (name_eq (congrArg Path.parts h))

/-- A path has one number. -/
theorem HasNumber.unique {i j : Nat} {p : Path} (hi : HasNumber A B i p)
    (hj : HasNumber A B j p) : i = j := by
  rcases hi with rfl | rfl <;> rcases hj with h | h <;>
    have hname := name_eq (congrArg Path.parts h)
  · exact privateName_injective hname
  · exact absurd hname (privateName_ne_publicName _ _)
  · exact absurd hname.symm (privateName_ne_publicName _ _)
  · exact publicName_injective hname

/-- The paths of the pairs are those of their numbers. -/
theorem exists_mem_outputs {pairs : List KeyPair} {p : Path} :
    ∀ {i : Nat}, (∃ f ∈ outputs A B i pairs, f.1 = p) ↔
      ∃ j, i ≤ j ∧ j < i + pairs.length ∧ HasNumber A B j p := by
  induction pairs with
  | nil =>
      intro i
      refine ⟨fun ⟨f, hf, _⟩ => (by cases hf), fun ⟨j, hge, hlt, _⟩ => ?_⟩
      rw [List.length_nil] at hlt
      omega
  | cons pair pairs ih =>
      intro i
      simp only [outputs, List.exists_mem_cons_iff, ih, List.length_cons]
      constructor
      · rintro (h | h | ⟨j, hge, hlt, hj⟩)
        · exact ⟨i, Nat.le_refl i, by omega, .inl h.symm⟩
        · exact ⟨i, Nat.le_refl i, by omega, .inr h.symm⟩
        · exact ⟨j, by omega, by omega, hj⟩
      · rintro ⟨j, hge, hlt, hj⟩
        by_cases hij : j = i
        · subst hij
          rcases hj with h | h
          · exact .inl h.symm
          · exact .inr (.inl h.symm)
        · exact .inr (.inr ⟨j, by omega, by omega, hj⟩)

theorem outputs_hasNumber {pairs : List KeyPair} {i : Nat} {f : Path × List UInt8}
    (hf : f ∈ outputs A B i pairs) : ∃ j, i ≤ j ∧ j < i + pairs.length ∧ HasNumber A B j f.1 :=
  exists_mem_outputs.mp ⟨f, hf, rfl⟩

/-- A path has one text. -/
theorem outputs_path_unique {pairs : List KeyPair} :
    ∀ {i : Nat} {f f' : Path × List UInt8}, f ∈ outputs A B i pairs → f' ∈ outputs A B i pairs →
      f.1 = f'.1 → f = f' := by
  induction pairs with
  | nil =>
      intro i f f' hf
      cases hf
  | cons pair pairs ih =>
      intro i f f' hf hf' h
      have hnow : ∀ {g : Path × List UInt8}, g ∈ outputs A B i (pair :: pairs) →
          g ∈ outputs A B (i + 1) pairs ∨ (g = (privatePath A i, pair.privateKey) ∨
            g = (publicPath B i, pair.publicKey)) ∧ HasNumber A B i g.1 := by
        intro g hg
        simp only [outputs, List.mem_cons] at hg
        rcases hg with rfl | rfl | hg
        · exact .inr ⟨.inl rfl, .inl rfl⟩
        · exact .inr ⟨.inr rfl, .inr rfl⟩
        · exact .inl hg
      -- a path of a later number is not one of this number
      have hlater : ∀ {g g' : Path × List UInt8}, g ∈ outputs A B (i + 1) pairs →
          HasNumber A B i g'.1 → g.1 ≠ g'.1 := by
        intro g g' hg hg' heq
        obtain ⟨j, hge, -, hj⟩ := outputs_hasNumber hg
        rw [heq] at hj
        have hij := hj.unique hg'
        omega
      rcases hnow hf with hf | ⟨hf, hnumber⟩ <;> rcases hnow hf' with hf' | ⟨hf', hnumber'⟩
      · exact ih hf hf' h
      · exact absurd h (hlater hf hnumber')
      · exact absurd h.symm (hlater hf' hnumber)
      · rcases hf with rfl | rfl <;> rcases hf' with rfl | rfl
        · rfl
        · exact absurd h (privatePath_ne_publicPath A B i i)
        · exact absurd h.symm (privatePath_ne_publicPath A B i i)
        · rfl

/-- The files of the first pairs are among the files of all. -/
theorem outputs_take {pairs : List KeyPair} {k : Nat} :
    ∀ {i : Nat} {f : Path × List UInt8}, f ∈ outputs A B i (pairs.take k) →
      f ∈ outputs A B i pairs := by
  induction k generalizing pairs with
  | zero =>
      intro i f hf
      cases hf
  | succ k ih =>
      intro i f hf
      cases pairs with
      | nil => cases hf
      | cons pair pairs =>
          simp only [List.take_succ_cons, outputs, List.mem_cons] at hf ⊢
          exact hf.imp_right fun hf => hf.imp_right ih

/-! ## Some pairs, one after the other -/

/-- Pairs written under the numbers from `i` on. -/
def writePairs (nl : Newline) (A B : Path) : Nat → List KeyPair → FileSystem → FileSystem
  | _, [], fs => fs
  | i, pair :: pairs, fs =>
      writePairs nl A B (i + 1) pairs (writePair nl (privatePath A i) (publicPath B i) pair fs).1

/-- No other file has changed. -/
theorem writePairs_frame (nl : Newline) (A B : Path) (pairs : List KeyPair) :
    ∀ (i : Nat) (fs : FileSystem),
      WritesOnly (fun loc => ∃ f ∈ outputs A B i pairs, fs.outputTarget f.1 = some loc) fs
        (writePairs nl A B i pairs fs) := by
  induction pairs with
  | nil => exact fun i fs => .refl _ fs
  | cons pair pairs ih =>
      intro i fs
      have hround := writePair_frame nl fs (privatePath A i) (publicPath B i) pair
      refine (hround.trans (ih (i + 1) _)).mono fun loc hloc => ?_
      simp only [hround.same.outputTarget] at hloc
      simp only [outputs, List.exists_mem_cons_iff]
      rwa [or_assoc] at hloc

/-- There is something where a stream was opened. -/
theorem writePairs_isSome (nl : Newline) (A B : Path) (pairs : List KeyPair) (loc : Location) :
    ∀ (i : Nat) (fs : FileSystem), ((writePairs nl A B i pairs fs).node loc).isSome ↔
      (fs.node loc).isSome ∨ ∃ f ∈ outputs A B i pairs, fs.outputTarget f.1 = some loc := by
  induction pairs with
  | nil =>
      intro i fs
      simp [writePairs, outputs]
  | cons pair pairs ih =>
      intro i fs
      have hsame := (writePair_frame nl fs (privatePath A i) (publicPath B i) pair).same
      simp only [writePairs, ih, writePair_isSome, hsame.outputTarget, outputs,
        List.exists_mem_cons_iff, or_assoc]

/-- A file to which only one text is written, or which has it and is left
alone, has it in the end. -/
theorem writePairs_bytesAt {l : Location} {text : List UInt8} {pairs : List KeyPair} :
    ∀ {i : Nat} {fs : FileSystem}, Fits nl fs l text →
      (∀ f ∈ outputs A B i pairs, fs.outputTarget f.1 = some l → f.2 = text) →
      (fs.bytesAt l = some (nl.encode text) ∨
        ∃ f ∈ outputs A B i pairs, fs.outputTarget f.1 = some l) →
      (writePairs nl A B i pairs fs).bytesAt l = some (nl.encode text) := by
  induction pairs with
  | nil =>
      rintro i fs - - (hnow | ⟨f, hf, -⟩)
      · exact hnow
      · cases hf
  | cons pair pairs ih =>
      intro i fs hfits htext hnow
      simp only [outputs, List.forall_mem_cons] at htext
      simp only [outputs, List.exists_mem_cons_iff] at hnow
      obtain ⟨hp, hq, hlater⟩ := htext
      have hsame := (writePair_frame nl fs (privatePath A i) (publicPath B i) pair).same
      refine ih (hfits.congr hsame) (by simpa only [hsame.outputTarget] using hlater) ?_
      simp only [hsame.outputTarget]
      by_cases hround : fs.bytesAt l = some (nl.encode text) ∨
          fs.outputTarget (privatePath A i) = some l ∨ fs.outputTarget (publicPath B i) = some l
      · exact .inl (writePair_bytesAt hp hq hfits hround)
      · exact .inr (by tauto)

/-! ## The check of a pair -/

/-- The paths of the numbers between two. -/
def pathsBetween (A B : Path) (i j : Nat) : List Path :=
  (List.range' (i + 1) (j - (i + 1))).flatMap fun k => [privatePath A k, publicPath B k]

theorem mem_pathsBetween {i j : Nat} {p : Path} :
    p ∈ pathsBetween A B i j ↔ ∃ k, i < k ∧ k < j ∧ HasNumber A B k p := by
  simp only [pathsBetween, List.mem_flatMap, List.mem_range'_1, List.mem_cons, List.not_mem_nil,
    or_false]
  constructor
  · rintro ⟨k, ⟨hge, hlt⟩, hk⟩
    exact ⟨k, by omega, by omega, hk⟩
  · rintro ⟨k, hgt, hlt, hk⟩
    exact ⟨k, ⟨by omega, by omega⟩, hk⟩

/-- What `exists` answers on `fs` once streams have been opened on the paths
`opened`. -/
def existsOnce (fs : FileSystem) (opened : List Path) (p : Path) : Option Bool :=
  FileSystem.answer (fs.resolve p) fun loc =>
    (fs.node loc).isSome || opened.any fun o => fs.outputTarget o = some loc

theorem existsOnce_nil (fs : FileSystem) : existsOnce fs [] = fs.pathExists := by
  funext p
  simp [existsOnce, FileSystem.pathExists]

/-- What the check of pair `j` says, in a run of the loop from the counter `i`
on that gets there. -/
def refusalAt (force : Bool) (fs : FileSystem) (A B : Path) (i j : Nat) : Option KeygenError :=
  checkPair (existsOnce fs (pathsBetween A B i j)) force (privatePath A j) (publicPath B j)

theorem refusalAt_next (force : Bool) (fs : FileSystem) (A B : Path) (i : Nat) :
    refusalAt force fs A B i (i + 1) =
      refusal force (privatePath A (i + 1)) (publicPath B (i + 1)) fs := by
  have hnil : pathsBetween A B i (i + 1) = [] := by simp [pathsBetween]
  rw [refusalAt, refusal, hnil, existsOnce_nil]

/-- After a round the check finds what it would find anyway. -/
theorem refusalAt_round (nl : Newline) (force : Bool) (fs : FileSystem) (A B : Path) {i j : Nat}
    (hij : i + 1 < j) (pair : KeyPair) :
    refusalAt force (writePair nl (privatePath A (i + 1)) (publicPath B (i + 1)) pair fs).1 A B
      (i + 1) j = refusalAt force fs A B i j := by
  have hsame := (writePair_frame nl fs (privatePath A (i + 1)) (publicPath B (i + 1)) pair).same
  suffices hexists : existsOnce
      (writePair nl (privatePath A (i + 1)) (publicPath B (i + 1)) pair fs).1
      (pathsBetween A B (i + 1) j) = existsOnce fs (pathsBetween A B i j) by
    rw [refusalAt, refusalAt, hexists]
  funext p
  rw [existsOnce, existsOnce, hsame.resolve]
  congr 1
  funext loc
  rw [Bool.eq_iff_iff]
  simp only [Bool.or_eq_true, writePair_isSome, List.any_eq_true, decide_eq_true_eq,
    hsame.outputTarget, mem_pathsBetween]
  constructor
  · rintro ((hold | hp | hq) | ⟨o, ⟨k, hgt, hlt, hk⟩, ho⟩)
    · exact .inl hold
    · exact .inr ⟨_, ⟨i + 1, by omega, hij, .inl rfl⟩, hp⟩
    · exact .inr ⟨_, ⟨i + 1, by omega, hij, .inr rfl⟩, hq⟩
    · exact .inr ⟨o, ⟨k, by omega, hlt, hk⟩, ho⟩
  · rintro (hold | ⟨o, ⟨k, hgt, hlt, hk⟩, ho⟩)
    · exact .inl (.inl hold)
    · by_cases hki : k = i + 1
      · subst hki
        rcases hk with rfl | rfl
        · exact .inl (.inr (.inl ho))
        · exact .inl (.inr (.inr ho))
      · exact .inr ⟨o, ⟨k, by omega, hlt, hk⟩, ho⟩

/-- Without `force` it lets through what does not exist. -/
theorem checkPair_eq_none {exists_ : Path → Option Bool} {p q : Path}
    (h : checkPair exists_ false p q = none) : exists_ p = some false ∧ exists_ q = some false := by
  have hanswer : ∀ {o : Option Bool} {what : String}, checkAnswer o what = none → o = some false := by
    intro o what ho
    cases o with
    | none => cases ho
    | some b =>
        cases b with
        | false => rfl
        | true => cases ho
  unfold checkPair at h
  rw [if_neg Bool.false_ne_true] at h
  split at h
  · cases h
  · exact ⟨hanswer ‹_›, hanswer h⟩

/-- Where a stream is opened behind the check there was nothing. -/
theorem node_of_passed {i : Nat} {p : Path} {loc : Location}
    (h : refusalAt false fs A B 0 i = none) (hp : HasNumber A B i p)
    (hloc : fs.outputTarget p = some loc) : fs.node loc = none := by
  have hnot : existsOnce fs (pathsBetween A B 0 i) p = some false := by
    obtain ⟨hprivate, hpublic⟩ := checkPair_eq_none h
    rcases hp with rfl | rfl
    · exact hprivate
    · exact hpublic
  rw [existsOnce, (FileSystem.outputTarget_eq_some.mp hloc).1, FileSystem.answer,
    Option.some.injEq, Bool.or_eq_false_iff] at hnot
  simpa using hnot.1

/-! ## The loop, once both folders exist -/

/-- Both folders exist. -/
structure Ready (fs : FileSystem) (A B : Path) : Prop where
  privateFolder : fs.isDirectory A = true
  publicFolder : fs.isDirectory B = true

theorem Ready.grows (h : Ready fs A B) (hgrows : FileSystem.Grows fs fs') : Ready fs' A B :=
  ⟨hgrows.isDirectory h.privateFolder, hgrows.isDirectory h.publicFolder⟩

variable {force : Bool}

/-- The loop at the counter `i` has written `k` pairs, as if there were no
others, and come to an end. Only the check of the first pair of all is not the
loop's: it was made when the folders may have been missing. -/
structure Ran (nl : Newline) (force : Bool) (A B : Path) (fs : FileSystem) (i : Nat)
    (closed : List (Path × Bool)) (pairs : List KeyPair) (k : Nat) (r : Report) : Prop where
  le : k ≤ pairs.length
  counted : (i : Int) + k ≤ intMax
  passed : ∀ j, i < j → 1 < j → j ≤ i + k → refusalAt force fs A B i j = none
  disk : r.disk = writePairs nl A B (i + 1) (pairs.take k) fs
  closed : r.closed = closed ++
    (outputs A B (i + 1) (pairs.take k)).map fun f => (f.1, takes nl fs f.1 f.2)
  ending : (k = pairs.length ∧ r.outcome = .returned) ∨
    (k < pairs.length ∧ (i : Int) + k = intMax ∧ r.outcome = .undefined) ∨
    (k < pairs.length ∧ (i : Int) + k < intMax ∧
      ∃ e, refusalAt force fs A B i (i + k + 1) = some e ∧ r.outcome = .threw e)

/-- Nothing written yet, and the loop ends. -/
theorem Ran.zero {i : Nat} {closed : List (Path × Bool)} {pairs : List KeyPair}
    {outcome : Outcome} (hi : (i : Int) ≤ intMax)
    (hending : (0 = pairs.length ∧ outcome = .returned) ∨
      (0 < pairs.length ∧ (i : Int) = intMax ∧ outcome = .undefined) ∨
      (0 < pairs.length ∧ (i : Int) < intMax ∧
        ∃ e, refusalAt force fs A B i (i + 1) = some e ∧ outcome = .threw e)) :
    Ran nl force A B fs i closed pairs 0 ⟨outcome, fs, closed⟩ where
  le := Nat.zero_le _
  counted := by simpa using hi
  passed j hgt _ hle := by omega
  disk := rfl
  closed := by simp [outputs]
  ending := by simpa using hending

/-- The round of number `i + 1`, before a rest of the loop. -/
theorem Ran.round {i k : Nat} {closed : List (Path × Bool)} {pair : KeyPair}
    {pairs : List KeyPair} {r : Report}
    (hfree : 0 < i → refusalAt force fs A B i (i + 1) = none)
    (hrest : let w := writePair nl (privatePath A (i + 1)) (publicPath B (i + 1)) pair fs
      Ran nl force A B w.1 (i + 1) (closed ++ w.2) pairs k r) :
    Ran nl force A B fs i closed (pair :: pairs) (k + 1) r := by
  have hsame := (writePair_frame nl fs (privatePath A (i + 1)) (publicPath B (i + 1)) pair).same
  have hcount : ((i + 1 : Nat) : Int) + k = i + (k + 1 : Nat) := by
    push_cast
    omega
  refine ⟨Nat.succ_le_succ hrest.le, hcount ▸ hrest.counted, ?_, hrest.disk, ?_, ?_⟩
  · intro j hgt hone hle
    by_cases hij : j = i + 1
    · subst hij
      exact hfree (by omega)
    · rw [← refusalAt_round nl force fs A B (by omega) pair]
      exact hrest.passed j (by omega) hone (by omega)
  · rw [hrest.closed, writePair_closed, List.append_assoc]
    simp only [takes_congr hsame, List.take_succ_cons, outputs, List.map_cons, List.cons_append,
      List.nil_append]
  · have hending := hrest.ending
    rw [hcount, refusalAt_round nl force fs A B (by omega) pair,
      show i + 1 + k + 1 = i + (k + 1) + 1 by omega] at hending
    rw [List.length_cons]
    refine hending.imp (And.imp_left (congrArg (· + 1))) (Or.imp ?_ ?_)
    · exact And.imp_left Nat.succ_lt_succ
    · exact And.imp_left Nat.succ_lt_succ

/-- Whatever ends the loop, it has run. -/
theorem loop_ran (nl : Newline) (force : Bool) (pairs : List KeyPair) :
    ∀ {fs : FileSystem} {i : Nat} (closed : List (Path × Bool)), Ready fs A B →
      (i : Int) ≤ intMax →
      ∃ k, Ran nl force A B fs i closed pairs k
        (writeSeparateKeysFrom nl A B force i closed pairs fs) := by
  induction pairs with
  | nil => exact fun _ _ hle => ⟨0, .zero hle (.inl ⟨rfl, rfl⟩)⟩
  | cons pair pairs ih =>
      intro fs i closed h hle
      rw [writeSeparateKeysFrom]
      split
      · rename_i hmax
        exact ⟨0, .zero hle (.inr (.inl ⟨Nat.succ_pos _, hmax, rfl⟩))⟩
      · rename_i hne
        have hlt : (i : Int) < intMax := by omega
        have hcheck : refusal force (A.child (privateName (i + 1))) (B.child (publicName (i + 1)))
            fs = refusalAt force fs A B i (i + 1) := (refusalAt_next force fs A B i).symm
        dsimp only
        rw [hcheck]
        cases hnow : refusalAt force fs A B i (i + 1) with
        | some e => exact ⟨0, .zero hle (.inr (.inr ⟨Nat.succ_pos _, hlt, e, hnow, rfl⟩))⟩
        | none =>
            -- the folders are there, so nothing is created
            simp only [FileSystem.createDirectories_self h.privateFolder,
              FileSystem.createDirectories_self h.publicFolder, Bool.not_true,
              Bool.false_eq_true, if_false]
            have hsame := (writePair_frame nl fs (privatePath A (i + 1)) (publicPath B (i + 1))
              pair).same
            obtain ⟨k, hk⟩ := ih (i := i + 1) (closed ++ (writePair nl (privatePath A (i + 1))
              (publicPath B (i + 1)) pair fs).2) (h.grows hsame.grows) (by push_cast; omega)
            exact ⟨k + 1, .round (fun _ => hnow) hk⟩

namespace Ran

variable {pairs : List KeyPair} {k : Nat} {r : Report}

/-- Only files of the pairs have changed since the loop started. -/
theorem frame (h : Ran nl force A B fs 0 [] pairs k r) :
    WritesOnly (fun loc => ∃ f ∈ outputs A B 1 pairs, fs.outputTarget f.1 = some loc) fs r.disk := by
  rw [h.disk]
  exact (writePairs_frame nl A B _ 1 fs).mono fun loc ⟨f, hf, hloc⟩ => ⟨f, outputs_take hf, hloc⟩

/-- What was written to a stream that was still good is on disk, if nothing
else is written there and it is no device. -/
theorem stored (h : Ran nl force A B fs 0 [] pairs k r) {f : Path × List UInt8}
    (hf : f ∈ outputs A B 1 pairs) (hgood : (f.1, true) ∈ r.closed)
    (hown : ∀ loc, fs.outputTarget f.1 = some loc → (fs.node loc = some .device → f.2 = []) ∧
      ∀ g ∈ outputs A B 1 pairs, fs.outputTarget g.1 = some loc → g.2 = f.2) :
    Stored nl r.disk f.1 f.2 := by
  rw [h.closed, List.nil_append, List.mem_map] at hgood
  obtain ⟨g, hg, heq⟩ := hgood
  obtain ⟨hpath, htakes⟩ := Prod.mk.inj heq
  obtain rfl := outputs_path_unique (outputs_take hg) hf hpath
  obtain ⟨loc, hloc, hroom⟩ := takes_eq_true.mp htakes
  obtain ⟨hdevice, htext⟩ := hown loc hloc
  have hsame := (writePairs_frame nl A B (pairs.take k) 1 fs).same
  rw [h.disk]
  refine ⟨loc, (hsame.resolve _).trans (FileSystem.outputTarget_eq_some.mp hloc).1, ?_⟩
  exact writePairs_bytesAt ⟨hroom, hdevice⟩ (fun g' hg' => htext g' (outputs_take hg'))
    (.inr ⟨g, hg, hloc⟩)

/-- A loop that returned has closed the streams of all pairs. -/
theorem closed_of_returned (h : Ran nl force A B fs 0 [] pairs k r)
    (hret : r.outcome = .returned) :
    (pairs.length : Int) ≤ intMax ∧
      r.closed = (outputs A B 1 pairs).map fun f => (f.1, takes nl fs f.1 f.2) := by
  rcases h.ending with ⟨rfl, -⟩ | ⟨-, -, hbad⟩ | ⟨-, -, e, -, hbad⟩
  · exact ⟨by simpa using h.counted, by simpa using h.closed⟩
  · rw [hret] at hbad
    cases hbad
  · rw [hret] at hbad
    cases hbad

end Ran

/-! ## The whole call -/

/-- The file system with both folders, if they can be created. -/
def withFolders (fs : FileSystem) (A B : Path) : Option FileSystem :=
  let first := fs.createDirectories A
  let second := first.2.createDirectories B
  if first.1 && second.1 then some second.2 else none

theorem withFolders_eq_some :
    withFolders fs A B = some fs' ↔ (fs.createDirectories A).1 = true ∧
      ((fs.createDirectories A).2.createDirectories B).1 = true ∧
      ((fs.createDirectories A).2.createDirectories B).2 = fs' := by
  simp [withFolders, and_assoc]

/-- The folders are only added to. -/
theorem moreDirectories_withFolders (h : withFolders fs A B = some fs') :
    FileSystem.MoreDirectories fs fs' := by
  obtain ⟨-, -, rfl⟩ := withFolders_eq_some.mp h
  exact (fs.createDirectories_more A).trans (FileSystem.createDirectories_more _ B)

theorem ready_withFolders (h : withFolders fs A B = some fs') : Ready fs' A B := by
  obtain ⟨hfirst, hsecond, rfl⟩ := withFolders_eq_some.mp h
  exact ⟨(FileSystem.createDirectories_more _ B).grows.isDirectory
    (FileSystem.createDirectories_spec hfirst), FileSystem.createDirectories_spec hsecond⟩

/-- What a call of `WriteSeparateKeys` has done when it ends. -/
inductive SeparateRun (nl : Newline) (force : Bool) (A B : Path) (pairs : List KeyPair)
    (fs : FileSystem) (r : Report) : Prop where
  /-- there was nothing to do -/
  | empty (h : pairs = []) (hr : r = ⟨.returned, fs, []⟩)
  /-- the check of the first pair has thrown -/
  | refused (e : KeygenError)
      (h : refusal force (privatePath A 1) (publicPath B 1) fs = some e)
      (hr : r = ⟨.threw e, fs, []⟩)
  /-- a folder was not created -/
  | noFolders (h : refusal force (privatePath A 1) (publicPath B 1) fs = none)
      (hfolders : withFolders fs A B = none) (houtcome : r.outcome = .threw .filesystemError)
      (hclosed : r.closed = []) (hmore : FileSystem.MoreDirectories fs r.disk)
  /-- with both folders, `k` pairs were written -/
  | ran (fs' : FileSystem) (k : Nat)
      (h : refusal force (privatePath A 1) (publicPath B 1) fs = none)
      (hfolders : withFolders fs A B = some fs') (hk : 0 < k)
      (hran : Ran nl force A B fs' 0 [] pairs k r)

theorem separateRun (nl : Newline) (force : Bool) (A B : Path) (pairs : List KeyPair)
    (fs : FileSystem) :
    SeparateRun nl force A B pairs fs (writeSeparateKeysFrom nl A B force 0 [] pairs fs) := by
  cases pairs with
  | nil => exact .empty rfl rfl
  | cons pair pairs =>
      have hne : (0 : Int) ≠ intMax := by decide
      have hcheck : refusal force (A.child (privateName (0 + 1))) (B.child (publicName (0 + 1)))
          fs = refusal force (privatePath A 1) (publicPath B 1) fs := rfl
      rw [writeSeparateKeysFrom, if_neg hne]
      dsimp only
      rw [hcheck]
      cases hfree : refusal force (privatePath A 1) (publicPath B 1) fs with
      | some e => exact .refused e hfree rfl
      | none =>
          have hmore := fs.createDirectories_more A
          cases hfirst : (fs.createDirectories A).1 with
          | false =>
              exact .noFolders hfree (by simp [withFolders, hfirst]) (by simp) (by simp)
                (by simpa using hmore)
          | true =>
              have hmore' := hmore.trans ((fs.createDirectories A).2.createDirectories_more B)
              cases hsecond : ((fs.createDirectories A).2.createDirectories B).1 with
              | false =>
                  exact .noFolders hfree (by simp [withFolders, hfirst, hsecond]) (by simp)
                    (by simp) (by simpa using hmore')
              | true =>
                  have hfolders := withFolders_eq_some.mpr ⟨hfirst, hsecond, rfl⟩
                  have hready := ready_withFolders hfolders
                  generalize ((fs.createDirectories A).2.createDirectories B).2 = fs'
                    at hfolders hready
                  have hsame := (writePair_frame nl fs' (privatePath A 1) (publicPath B 1)
                    pair).same
                  obtain ⟨k, hk⟩ := loop_ran nl force pairs (i := 1) ([] ++
                    (writePair nl (privatePath A 1) (publicPath B 1) pair fs').2)
                    (hready.grows hsame.grows) (by decide)
                  exact .ran fs' (k + 1) hfree hfolders (Nat.succ_pos k)
                    (.round (fun hbad => absurd hbad (Nat.lt_irrefl 0)) hk)

/-- However it ends, the call has only made directories and written files. -/
theorem SeparateRun.grows {pairs : List KeyPair} {r : Report}
    (hrun : SeparateRun nl force A B pairs fs r) : FileSystem.Grows fs r.disk := by
  cases hrun with
  | empty hnil hr => exact hr ▸ .refl fs
  | refused e hnow hr => exact hr ▸ .refl fs
  | noFolders hfree hfolders houtcome hclosed hmore => exact hmore.grows
  | ran fs' k hfree hfolders hk hran =>
      exact (moreDirectories_withFolders hfolders).grows.trans hran.frame.same.grows

/-- The call will throw: the check of the first pair does, a folder cannot be
created, or, with both folders there, the check of a later pair does. -/
def Refused (force : Bool) (A B : Path) (pairs : List KeyPair) (fs : FileSystem) : Prop :=
  refusal force (privatePath A 1) (publicPath B 1) fs ≠ none ∨ withFolders fs A B = none ∨
    ∃ fs' j, withFolders fs A B = some fs' ∧ 1 < j ∧ j ≤ pairs.length ∧ (j : Int) ≤ intMax ∧
      refusalAt force fs' A B 0 j ≠ none

variable {pairs : List KeyPair} {r : Report}

theorem SeparateRun.threw (hrun : SeparateRun nl force A B pairs fs r) (hne : pairs ≠ [])
    (h : Refused force A B pairs fs) : ∃ e, r.outcome = .threw e := by
  cases hrun with
  | empty hnil hr => exact absurd hnil hne
  | refused e hnow hr => exact ⟨e, congrArg Report.outcome hr⟩
  | noFolders hfree hfolders houtcome hclosed hmore => exact ⟨_, houtcome⟩
  | ran fs' k hfree hfolders hk hran =>
      rcases h with hnow | hnone | ⟨fs'', j, hfs'', hgt, hlen, hmax, hrefused⟩
      · exact absurd hfree hnow
      · rw [hfolders] at hnone
        cases hnone
      · obtain rfl := Option.some.inj (hfolders.symm.trans hfs'')
        have hlt : k < j := by
          by_contra hle
          exact hrefused (hran.passed j (by omega) hgt (by omega))
        rcases hran.ending with ⟨rfl, -⟩ | ⟨-, hcount, -⟩ | ⟨-, -, e, -, houtcome⟩
        · omega
        · omega
        · exact ⟨e, houtcome⟩

/-- If nothing is refused the call returns, or its counter overflows. -/
theorem SeparateRun.completes (hrun : SeparateRun nl force A B pairs fs r) (hne : pairs ≠ [])
    (h : ¬ Refused force A B pairs fs) :
    ∃ fs' k, withFolders fs A B = some fs' ∧ Ran nl force A B fs' 0 [] pairs k r ∧
      (r.outcome = .returned ∨ intMax < (pairs.length : Int) ∧ r.outcome = .undefined) := by
  cases hrun with
  | empty hnil hr => exact absurd hnil hne
  | refused e hnow hr => exact absurd (.inl (by rw [hnow]; exact nofun)) h
  | noFolders hfree hfolders houtcome hclosed hmore => exact absurd (.inr (.inl hfolders)) h
  | ran fs' k hfree hfolders hk hran =>
      refine ⟨fs', k, hfolders, hran, ?_⟩
      rcases hran.ending with ⟨-, hret⟩ | ⟨hlt, hcount, hover⟩ | ⟨hlt, hcount, e, he, -⟩
      · exact .inl hret
      · exact .inr ⟨by omega, hover⟩
      · refine absurd (.inr (.inr ⟨fs', k + 1, hfolders, by omega, hlt, by push_cast; omega, ?_⟩)) h
        rw [Nat.zero_add] at he
        rw [he]
        exact nofun

/-! ## Without links -/

/-- Where there are no links two names are two files. -/
theorem Ready.path_unique (h : Ready fs A B) (hfree : fs.LinkFree) {i j : Nat} {p q : Path}
    {loc : Location} (hp : HasNumber A B i p) (hq : HasNumber A B j q)
    (hresp : fs.resolve p = .ok loc) (hresq : fs.resolve q = .ok loc) : p = q ∧ i = j := by
  obtain ⟨a, ha, -⟩ := FileSystem.isDirectory_eq_true.mp h.privateFolder
  obtain ⟨b, hb, -⟩ := FileSystem.isDirectory_eq_true.mp h.publicFolder
  have hprivate : ∀ {k : Nat}, fs.resolve (privatePath A k) = .ok loc → loc = a ++ [privateName k] :=
    fun hres => hfree.resolve_child ha (isOrdinary_privateName _) hres
  have hpublic : ∀ {k : Nat}, fs.resolve (publicPath B k) = .ok loc → loc = b ++ [publicName k] :=
    fun hres => hfree.resolve_child hb (isOrdinary_publicName _) hres
  rcases hp with rfl | rfl <;> rcases hq with rfl | rfl
  · obtain rfl := privateName_injective (name_eq ((hprivate hresp).symm.trans (hprivate hresq)))
    exact ⟨rfl, rfl⟩
  · exact absurd (name_eq ((hprivate hresp).symm.trans (hpublic hresq)))
      (privateName_ne_publicName _ _)
  · exact absurd (name_eq ((hprivate hresq).symm.trans (hpublic hresp)))
      (privateName_ne_publicName _ _)
  · obtain rfl := publicName_injective (name_eq ((hpublic hresp).symm.trans (hpublic hresq)))
    exact ⟨rfl, rfl⟩

/-- So nothing is written over a key. -/
theorem Ready.target_unique (h : Ready fs A B) (hfree : fs.LinkFree) {i : Nat}
    {f g : Path × List UInt8} (hf : f ∈ outputs A B i pairs) (hg : g ∈ outputs A B i pairs)
    {loc : Location} (hlocf : fs.outputTarget f.1 = some loc)
    (hlocg : fs.outputTarget g.1 = some loc) : g = f := by
  obtain ⟨j, -, -, hj⟩ := outputs_hasNumber hf
  obtain ⟨k, -, -, hk⟩ := outputs_hasNumber hg
  exact outputs_path_unique hg hf (h.path_unique hfree hk hj
    (FileSystem.outputTarget_eq_some.mp hlocg).1 (FileSystem.outputTarget_eq_some.mp hlocf).1).1

theorem emptyDisk_plain : emptyDisk.Plain := by
  have hnode : ∀ loc n, emptyDisk.node loc = some n → n = .directory := by
    intro loc n hn
    unfold emptyDisk at hn
    dsimp only at hn
    split at hn
    · exact (Option.some.inj hn).symm
    · cases hn
  constructor
  · intro loc n hn
    rw [hnode loc n hn]
    rfl
  · intro loc hn
    cases hnode loc _ hn

end PacketDistribution.Keys
