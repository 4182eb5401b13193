/-
PacketDistribution.Keys.MergedTheorems — what `WriteMergedKeys` leaves on
disk.

Both streams are followed through the loop together. `mergeKeys_frame` says
what cannot change, `mergeKeys_fed` when neither has failed, and
`mergeKeys_onTrack` what the files hold as long as neither fails, also when
the two paths name one file and the two texts agree.
-/
import PacketDistribution.Keys.WriterTheorems

namespace PacketDistribution.Keys

open PacketDistribution.Lib

variable {nl : Newline} {fs fs' : FileSystem}

/-- The keys in order, each ended by a newline. -/
def mergedText (key : KeyPair → List UInt8) (pairs : List KeyPair) : List UInt8 :=
  pairs.flatMap fun pair => key pair ++ [Newline.lf]

theorem encode_mergedText_cons (nl : Newline) (key : KeyPair → List UInt8) (pair : KeyPair)
    (pairs : List KeyPair) :
    nl.encode (mergedText key (pair :: pairs)) =
      nl.encode (key pair) ++ nl.encode [Newline.lf] ++ nl.encode (mergedText key pairs) := by
  unfold mergedText
  rw [List.flatMap_cons, Newline.encode_append, Newline.encode_append]

/-! ## The loop -/

/-- One round: each stream is given its key, then a newline, and flushed. -/
theorem mergeKeys_cons (pair : KeyPair) (pairs : List KeyPair) (s t : OutputStream) :
    mergeKeys nl (pair :: pairs) s t fs =
      let s' := ((s.write nl pair.privateKey).write nl [Newline.lf]).flush fs
      let t' := ((t.write nl pair.publicKey).write nl [Newline.lf]).flush s'.2
      mergeKeys nl pairs s'.1 t'.1 t'.2 :=
  rfl

@[simp] theorem mergeKeys_room (nl : Newline) (pairs : List KeyPair) :
    ∀ (s t : OutputStream) (fs : FileSystem), (mergeKeys nl pairs s t fs).2.2.room = fs.room := by
  induction pairs with
  | nil => exact fun _ _ _ => rfl
  | cons pair pairs ih =>
      intro s t fs
      rw [mergeKeys_cons]
      simp only [ih, OutputStream.flush_room]

/-- The loop changes the two files only. -/
theorem mergeKeys_frame (nl : Newline) (pairs : List KeyPair) :
    ∀ {s t : OutputStream} {fs : FileSystem}, s.OnFile fs → t.OnFile fs →
      let r := mergeKeys nl pairs s t fs
      r.1.target = s.target ∧ r.2.1.target = t.target ∧
        r.1.OnFile r.2.2 ∧ r.2.1.OnFile r.2.2 ∧
        WritesOnly (fun loc => s.target = some loc ∨ t.target = some loc) fs r.2.2 := by
  induction pairs with
  | nil => exact fun hs ht => ⟨rfl, rfl, hs, ht, .refl _ _⟩
  | cons pair pairs ih =>
      intro s t fs hs ht
      rw [mergeKeys_cons]
      have hs₁ := (hs.write nl pair.privateKey).write nl [Newline.lf]
      have ht₁ := (ht.write nl pair.publicKey).write nl [Newline.lf]
      have hsw := (OutputStream.write_target nl (s.write nl pair.privateKey) [Newline.lf]).trans
        (OutputStream.write_target nl s pair.privateKey)
      have htw := (OutputStream.write_target nl (t.write nl pair.publicKey) [Newline.lf]).trans
        (OutputStream.write_target nl t pair.publicKey)
      generalize (s.write nl pair.privateKey).write nl [Newline.lf] = s₁ at hs₁ hsw ⊢
      generalize (t.write nl pair.publicKey).write nl [Newline.lf] = t₁ at ht₁ htw ⊢
      have hflush := OutputStream.flush_frame hs₁
      have hflush' := OutputStream.flush_frame (ht₁.flush_other s₁)
      have hs₂ : (s₁.flush fs).1.OnFile (s₁.flush fs).2 := by
        intro loc hloc
        rw [OutputStream.flush_target] at hloc
        exact hs₁.flush_other s₁ loc hloc
      have ht₂ : (t₁.flush (s₁.flush fs).2).1.OnFile (t₁.flush (s₁.flush fs).2).2 := by
        intro loc hloc
        rw [OutputStream.flush_target] at hloc
        exact (ht₁.flush_other s₁).flush_other t₁ loc hloc
      obtain ⟨htarget, htarget', hfile, hfile', hrest⟩ := ih (hs₂.flush_other t₁) ht₂
      simp only [OutputStream.flush_target, hsw, htw] at htarget htarget' hrest hflush hflush'
      refine ⟨htarget, htarget', hfile, hfile', ((hflush.trans hflush').trans hrest).mono ?_⟩
      intro loc hloc
      tauto

/-- What the streams have been given at the end of the loop. -/
theorem mergeKeys_fed (nl : Newline) {l l' : Option Location} {room : Location → Nat}
    (pairs : List KeyPair) :
    ∀ {s t : OutputStream} {fs : FileSystem} {m n : Nat}, s.Fed l room m → t.Fed l' room n →
      fs.room = room →
      let r := mergeKeys nl pairs s t fs
      r.1.Fed l room (m + (nl.encode (mergedText KeyPair.privateKey pairs)).length) ∧
        r.2.1.Fed l' room (n + (nl.encode (mergedText KeyPair.publicKey pairs)).length) := by
  induction pairs with
  | nil =>
      intro s t fs m n hs ht hroom
      simpa [mergedText, mergeKeys] using And.intro hs ht
  | cons pair pairs ih =>
      intro s t fs m n hs ht hroom
      rw [mergeKeys_cons]
      have hs₁ := (hs.write nl pair.privateKey).write nl [Newline.lf]
      have ht₁ := (ht.write nl pair.publicKey).write nl [Newline.lf]
      generalize (s.write nl pair.privateKey).write nl [Newline.lf] = s₁ at hs₁ ⊢
      generalize (t.write nl pair.publicKey).write nl [Newline.lf] = t₁ at ht₁ ⊢
      have hroom₁ := (OutputStream.flush_room s₁ fs).trans hroom
      have hroom₂ := (OutputStream.flush_room t₁ (s₁.flush fs).2).trans hroom₁
      have hround := ih (hs₁.flush hroom).1 (ht₁.flush hroom₁).1 hroom₂
      simp only [encode_mergedText_cons, List.length_append]
      simp only [Nat.add_assoc] at hround ⊢
      exact hround

/-- As long as neither stream fails both write what they are given, to two
files or, with one text, to one. -/
theorem mergeKeys_onTrack {l l' : Location} {text text' : List UInt8}
    (hsame : l = l' → text = text') {pairs : List KeyPair} :
    ∀ {s t : OutputStream} {fs : FileSystem} {given given' : List UInt8},
      s.OnTrack fs l text given → t.OnTrack fs l' text' given' →
      text.length ≤ fs.room l → text'.length ≤ fs.room l' →
      given ++ nl.encode (mergedText KeyPair.privateKey pairs) = text →
      given' ++ nl.encode (mergedText KeyPair.publicKey pairs) = text' →
      let r := mergeKeys nl pairs s t fs
      r.1.OnTrack r.2.2 l text text ∧ r.2.1.OnTrack r.2.2 l' text' text' := by
  induction pairs with
  | nil =>
      intro s t fs given given' hs ht hroom hroom' hend hend'
      rw [show mergedText _ [] = [] from rfl, Newline.encode_nil, List.append_nil] at hend hend'
      subst hend hend'
      exact ⟨hs, ht⟩
  | cons pair pairs ih =>
      intro s t fs given given' hs ht hroom hroom' hend hend'
      rw [encode_mergedText_cons] at hend hend'
      simp only [← List.append_assoc] at hend hend'
      have hs₁ := (hs.write nl pair.privateKey
        ⟨nl.encode [Newline.lf] ++ nl.encode (mergedText KeyPair.privateKey pairs), by
          simpa using hend⟩).write nl [Newline.lf] ⟨_, hend⟩
      have ht₁ := (ht.write nl pair.publicKey
        ⟨nl.encode [Newline.lf] ++ nl.encode (mergedText KeyPair.publicKey pairs), by
          simpa using hend'⟩).write nl [Newline.lf] ⟨_, hend'⟩
      rw [mergeKeys_cons]
      generalize (s.write nl pair.privateKey).write nl [Newline.lf] = s₁ at hs₁ ⊢
      generalize (t.write nl pair.publicKey).write nl [Newline.lf] = t₁ at ht₁ ⊢
      have ht₂ := hs₁.flush_other ht₁ hroom hsame
      have hroom₂ : text'.length ≤ (s₁.flush fs).2.room l' := by
        rw [OutputStream.flush_room]
        exact hroom'
      have hs₃ := ht₂.flush_other (hs₁.flush hroom) hroom₂ fun h => (hsame h.symm).symm
      refine ih hs₃ (ht₂.flush hroom₂) ?_ ?_ hend hend'
      · rw [OutputStream.flush_room, OutputStream.flush_room]
        exact hroom
      · rw [OutputStream.flush_room]
        exact hroom₂

/-! ## The whole call -/

/-- The two merged files, with their texts. -/
def mergedOutputs (p q : Path) (pairs : List KeyPair) : List (Path × List UInt8) :=
  [(p, mergedText KeyPair.privateKey pairs), (q, mergedText KeyPair.publicKey pairs)]

variable {P Q : StdString} {force : Bool} {pairs : List KeyPair}

theorem merged_refused (nl : Newline) (pairs : List KeyPair)
    (h : refusal force (Path.ofString P) (Path.ofString Q) fs ≠ none) :
    ∃ e, writeMergedKeys nl P Q force pairs fs = ⟨.threw e, fs, []⟩ := by
  obtain ⟨e, he⟩ := Option.ne_none_iff_exists'.mp h
  refine ⟨e, ?_⟩
  unfold writeMergedKeys
  simp only [he]

theorem writeMergedKeys_eq (h : refusal force (Path.ofString P) (Path.ofString Q) fs = none) :
    writeMergedKeys nl P Q force pairs fs =
      let privateOpen := fs.openOutput (Path.ofString P)
      let publicOpen := privateOpen.2.openOutput (Path.ofString Q)
      let r := mergeKeys nl pairs privateOpen.1 publicOpen.1 publicOpen.2
      let privateClosed := r.1.flush r.2.2
      let publicClosed := r.2.1.flush privateClosed.2
      ⟨.returned, publicClosed.2, [(Path.ofString P, privateClosed.1.good),
        (Path.ofString Q, publicClosed.1.good)]⟩ := by
  unfold writeMergedKeys
  simp only [h]
  rfl

/-- If nothing is refused the call returns, and a stream is good at the end
exactly when its file takes the keys. -/
theorem merged_returned (nl : Newline) (pairs : List KeyPair)
    (h : refusal force (Path.ofString P) (Path.ofString Q) fs = none) :
    let r := writeMergedKeys nl P Q force pairs fs
    r.outcome = .returned ∧
      r.closed = (mergedOutputs (Path.ofString P) (Path.ofString Q) pairs).map fun f =>
        (f.1, takes nl fs f.1 f.2) := by
  rw [writeMergedKeys_eq h]
  generalize Path.ofString P = p
  generalize Path.ofString Q = q
  obtain ⟨-, -, hopen⟩ := fs.openOutput_frame p
  have hs := OutputStream.fed_open fs p
  have ht := OutputStream.fed_open (fs.openOutput p).2 q
  rw [hopen.same.outputTarget, OutputStream.openOutput_room] at ht
  have hroom : ((fs.openOutput p).2.openOutput q).2.room = fs.room := by simp
  obtain ⟨hs', ht'⟩ := mergeKeys_fed nl pairs hs ht hroom
  refine ⟨rfl, ?_⟩
  dsimp only
  rw [good_eq_takes hs' (by simp), good_eq_takes ht' (by simp)]
  rfl

/-- Whatever happens, no other file has changed. -/
theorem merged_frame (nl : Newline) (P Q : StdString) (force : Bool) (pairs : List KeyPair)
    (fs : FileSystem) :
    WritesOnly (fun loc => fs.outputTarget (Path.ofString P) = some loc ∨
        fs.outputTarget (Path.ofString Q) = some loc) fs
      (writeMergedKeys nl P Q force pairs fs).disk := by
  by_cases h : refusal force (Path.ofString P) (Path.ofString Q) fs = none
  · rw [writeMergedKeys_eq h]
    dsimp only
    generalize Path.ofString P = p
    generalize Path.ofString Q = q
    obtain ⟨htarget, hfile, hopen⟩ := fs.openOutput_frame p
    obtain ⟨htarget', hfile', hopen'⟩ := (fs.openOutput p).2.openOutput_frame q
    rw [hopen.same.outputTarget] at htarget' hopen'
    obtain ⟨hs, ht, hsFile, htFile, hloop⟩ :=
      mergeKeys_frame nl pairs (hfile.open_other q) hfile'
    generalize mergeKeys nl pairs (fs.openOutput p).1 ((fs.openOutput p).2.openOutput q).1
      ((fs.openOutput p).2.openOutput q).2 = r at hs ht hsFile htFile hloop ⊢
    have hclose := OutputStream.flush_frame hsFile
    have hclose' := OutputStream.flush_frame (htFile.flush_other r.1)
    simp only [hs, ht, htarget, htarget'] at hclose hclose' hloop
    refine ((((hopen.trans hopen').trans hloop).trans hclose).trans hclose').mono ?_
    intro loc hloc
    tauto
  · obtain ⟨e, he⟩ := merged_refused nl pairs h
    rw [he]
    exact .refl _ fs

/-- If both files can hold their keys, and two streams on one file are given
one text, all keys are stored. -/
theorem merged_stored (h : refusal force (Path.ofString P) (Path.ofString Q) fs = none)
    (hhold : ∀ f ∈ mergedOutputs (Path.ofString P) (Path.ofString Q) pairs,
      canHold nl fs f.1 f.2 = true)
    (hsame : fs.outputTarget (Path.ofString P) = fs.outputTarget (Path.ofString Q) →
      mergedText KeyPair.privateKey pairs = mergedText KeyPair.publicKey pairs) :
    ∀ f ∈ mergedOutputs (Path.ofString P) (Path.ofString Q) pairs,
      Stored nl (writeMergedKeys nl P Q force pairs fs).disk f.1 f.2 := by
  have hframe := (merged_frame nl P Q force pairs fs).same
  simp only [mergedOutputs, List.forall_mem_cons, List.not_mem_nil, false_implies,
    implies_true, and_true] at hhold ⊢
  obtain ⟨l, hl, hfits⟩ := canHold_eq_true.mp hhold.1
  obtain ⟨l', hl', hfits'⟩ := canHold_eq_true.mp hhold.2
  have hres := (FileSystem.outputTarget_eq_some.mp hl).1
  have hres' := (FileSystem.outputTarget_eq_some.mp hl').1
  suffices hbytes : (writeMergedKeys nl P Q force pairs fs).disk.bytesAt l
        = some (nl.encode (mergedText KeyPair.privateKey pairs)) ∧
      (writeMergedKeys nl P Q force pairs fs).disk.bytesAt l'
        = some (nl.encode (mergedText KeyPair.publicKey pairs)) from
    ⟨⟨l, (hframe.resolve _).trans hres, hbytes.1⟩, l', (hframe.resolve _).trans hres', hbytes.2⟩
  have htexts : l = l' → nl.encode (mergedText KeyPair.privateKey pairs)
      = nl.encode (mergedText KeyPair.publicKey pairs) := by
    intro heq
    rw [hsame (by rw [hl, hl', heq])]
  rw [writeMergedKeys_eq h]
  dsimp only
  generalize Path.ofString P = p at hl
  generalize Path.ofString Q = q at hl'
  obtain ⟨-, -, hopen⟩ := fs.openOutput_frame p
  have hs := (OutputStream.onTrack_open hl hfits.encoded_device).open_other q
  have ht := OutputStream.onTrack_open ((hopen.same.outputTarget q).trans hl')
    (hfits'.congr hopen.same).encoded_device
  have hroomFs : ((fs.openOutput p).2.openOutput q).2.room = fs.room := by simp
  obtain ⟨hs', ht'⟩ := mergeKeys_onTrack htexts hs ht (by rw [hroomFs]; exact hfits.room)
    (by rw [hroomFs]; exact hfits'.room) rfl rfl
  have hroomEnd := (mergeKeys_room nl pairs (fs.openOutput p).1
    ((fs.openOutput p).2.openOutput q).1 ((fs.openOutput p).2.openOutput q).2).trans hroomFs
  generalize mergeKeys nl pairs (fs.openOutput p).1 ((fs.openOutput p).2.openOutput q).1
    ((fs.openOutput p).2.openOutput q).2 = r at hs' ht' hroomEnd ⊢
  have hroom₁ : (nl.encode (mergedText KeyPair.privateKey pairs)).length ≤ r.2.2.room l := by
    rw [hroomEnd]
    exact hfits.room
  have hroom₂ : (nl.encode (mergedText KeyPair.publicKey pairs)).length ≤
      (r.1.flush r.2.2).2.room l' := by
    rw [OutputStream.flush_room, hroomEnd]
    exact hfits'.room
  have ht₁ := hs'.flush_other ht' hroom₁ htexts
  have hs₁ := ht₁.flush_other (hs'.flush hroom₁) hroom₂ fun heq => (htexts heq.symm).symm
  exact ⟨hs₁.finished (hs'.flush_position hroom₁),
    (ht₁.flush hroom₂).finished (ht₁.flush_position hroom₂)⟩

end PacketDistribution.Keys
