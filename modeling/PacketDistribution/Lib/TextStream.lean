/-
PacketDistribution.Lib.TextStream — file streams in text mode, with the
newline convention of the platform.

An output stream keeps its own write position and a buffer; `flush` puts the
buffer into the file at that position, as far as the file has room. A stream
that could not be opened, or that ran out of room, is not good, and every
later operation on it does nothing: no operation throws. A real buffer also
goes to the file each time it is full. That changes neither which streams are
good once they are closed nor what a file holds to which one text is written,
and of a file with two different texts nothing more is said than that.

* `Newline.decode_encode`: what is read back is what was written.
* `OutputStream.Charged`: when a stream is still good.
* `OutputStream.OnTrack`: what the files hold while two streams, on two
  files or on one, write texts that fit.
-/
import Mathlib.Data.List.Basic
import PacketDistribution.Lib.FileSystem

namespace PacketDistribution.Lib

/-! ## Newlines -/

/-- What a text-mode stream does to newlines: nothing, or a carriage return
before every line feed on the way out and none on the way in. -/
inductive Newline where
  | posix
  | windows
  deriving DecidableEq

namespace Newline

/-- Line feed and carriage return. -/
def lf : UInt8 := 10
def cr : UInt8 := 13

/-- A line feed is written as carriage return and line feed. -/
def encodeCrLf : List UInt8 → List UInt8
  | [] => []
  | b :: bs => if b = lf then cr :: lf :: encodeCrLf bs else b :: encodeCrLf bs

/-- Carriage return and line feed are read as a line feed. -/
def decodeCrLf : List UInt8 → List UInt8
  | [] => []
  | [b] => [b]
  | b :: c :: bs => if b = cr ∧ c = lf then lf :: decodeCrLf bs else b :: decodeCrLf (c :: bs)

/-- The raw bytes of a text. -/
def encode : Newline → List UInt8 → List UInt8
  | .posix => id
  | .windows => encodeCrLf

/-- The text of raw bytes. -/
def decode : Newline → List UInt8 → List UInt8
  | .posix => id
  | .windows => decodeCrLf

/-- Raw bytes never start with a line feed of their own. -/
theorem head?_encodeCrLf_ne (bs : List UInt8) : (encodeCrLf bs).head? ≠ some lf := by
  cases bs with
  | nil => simp [encodeCrLf]
  | cons b bs =>
      by_cases hb : b = lf
      · rw [encodeCrLf, if_pos hb]
        simp [cr, lf]
      · rw [encodeCrLf, if_neg hb]
        simpa using hb

/-- A byte that is not part of an encoded newline is read as it is. -/
theorem decodeCrLf_cons {b : UInt8} {bs : List UInt8} (h : b = cr → bs.head? ≠ some lf) :
    decodeCrLf (b :: bs) = b :: decodeCrLf bs := by
  cases bs with
  | nil => rfl
  | cons c bs =>
      rw [decodeCrLf, if_neg]
      rintro ⟨hb, hc⟩
      exact h hb (by rw [hc]; rfl)

theorem decodeCrLf_encodeCrLf (bs : List UInt8) : decodeCrLf (encodeCrLf bs) = bs := by
  induction bs with
  | nil => rfl
  | cons b bs ih =>
      by_cases hb : b = lf
      · rw [encodeCrLf, if_pos hb, decodeCrLf, if_pos ⟨rfl, rfl⟩, ih, hb]
      · rw [encodeCrLf, if_neg hb, decodeCrLf_cons fun _ => head?_encodeCrLf_ne bs, ih]

/-- Reading back what was written. -/
@[simp] theorem decode_encode (nl : Newline) (bs : List UInt8) : nl.decode (nl.encode bs) = bs := by
  cases nl with
  | posix => rfl
  | windows => exact decodeCrLf_encodeCrLf bs

theorem encode_injective (nl : Newline) : Function.Injective nl.encode :=
  Function.LeftInverse.injective (decode_encode nl)

theorem encode_append (nl : Newline) (a b : List UInt8) :
    nl.encode (a ++ b) = nl.encode a ++ nl.encode b := by
  cases nl with
  | posix => rfl
  | windows =>
      show encodeCrLf (a ++ b) = encodeCrLf a ++ encodeCrLf b
      induction a with
      | nil => rfl
      | cons c a ih =>
          rw [List.cons_append]
          by_cases hc : c = lf
          · rw [encodeCrLf, encodeCrLf, if_pos hc, if_pos hc, ih]
            rfl
          · rw [encodeCrLf, encodeCrLf, if_neg hc, if_neg hc, ih]
            rfl

@[simp] theorem encode_nil (nl : Newline) : nl.encode [] = [] := by
  cases nl <;> rfl

/-- On Windows every line feed takes one byte more. -/
theorem length_encodeCrLf (bs : List UInt8) :
    (encodeCrLf bs).length = bs.length + bs.count lf := by
  induction bs with
  | nil => rfl
  | cons b bs ih =>
      by_cases hb : b = lf
      · rw [encodeCrLf, if_pos hb, hb, List.count_cons_self]
        simp only [List.length_cons, ih]
        omega
      · rw [encodeCrLf, if_neg hb, List.count_cons_of_ne hb]
        simp only [List.length_cons, ih]
        omega

end Newline

/-! ## Output streams -/

/-- `std::ofstream`. The flag is `good()`. -/
structure OutputStream where
  target : Option Location
  position : Nat
  buffer : List UInt8
  good : Bool

/-- Replace the bytes from `pos` on. -/
def overlay (old : List UInt8) (pos : Nat) (new : List UInt8) : List UInt8 :=
  old.take pos ++ new ++ old.drop (pos + new.length)

namespace FileSystem

/-- The bytes that are read at a place: those of the file, and none from a
device. -/
def bytesAt (fs : FileSystem) (loc : Location) : Option (List UInt8) :=
  match fs.node loc with
  | some (.file bytes) => some bytes
  | some .device => some []
  | _ => none

/-- Make `bytes` the content of the file at a place. A device keeps nothing. -/
def store (fs : FileSystem) (loc : Location) (bytes : List UInt8) : FileSystem :=
  if fs.node loc = some .device then fs else fs.put loc (.file bytes)

/-- A stream for writing can be opened on what is at a place. -/
def opens : Option Node → Bool
  | none | some (.file _) | some .device => true
  | _ => false

/-- The place a stream opened on the path writes to. -/
def outputTarget (fs : FileSystem) (p : Path) : Option Location :=
  (fs.resolve p).toOption.filter fun loc => opens (fs.node loc) && fs.writable loc

/-- `std::ofstream(path)`: create the file or empty it. -/
def openOutput (fs : FileSystem) (p : Path) : OutputStream × FileSystem :=
  match fs.outputTarget p with
  | none => (⟨none, 0, [], false⟩, fs)
  | some loc => (⟨some loc, 0, [], true⟩, fs.store loc [])

end FileSystem

namespace OutputStream

/-- `write(data, size)`. -/
def write (nl : Newline) (s : OutputStream) (bytes : List UInt8) : OutputStream :=
  if s.good then { s with buffer := s.buffer ++ nl.encode bytes } else s

/-- Put the buffer into the file. What finds no room is lost, and the stream
fails. -/
def flush (s : OutputStream) (fs : FileSystem) : OutputStream × FileSystem :=
  match s.target with
  | none => (s, fs)
  | some loc =>
      if s.good then
        let data := s.buffer.take (fs.room loc - s.position)
        (⟨some loc, s.position + data.length, [], s.buffer.length ≤ fs.room loc - s.position⟩,
          fs.store loc (overlay ((fs.bytesAt loc).getD []) s.position data))
      else (s, fs)

/-- `<< std::endl`. -/
def endl (nl : Newline) (s : OutputStream) (fs : FileSystem) : OutputStream × FileSystem :=
  (s.write nl [Newline.lf]).flush fs

/-- `close()`: what is still in the buffer is written. -/
def close (s : OutputStream) (fs : FileSystem) : OutputStream × FileSystem :=
  s.flush fs

end OutputStream

/-! ## Input streams -/

/-- What `std::ifstream(path)` finds. -/
inductive Opened where
  | file (bytes : List UInt8)
  | directory
  | nothing
  deriving DecidableEq

def FileSystem.openInput (fs : FileSystem) (p : Path) : Opened :=
  match fs.resolve p with
  | .error _ => .nothing
  | .ok loc =>
      match fs.node loc with
      | some (.file bytes) => .file bytes
      | some .device => .file []
      | some .directory => .directory
      | _ => .nothing

/-! ## What a stream does to the tree -/

/-- The stream writes to something that takes bytes, if to anything. -/
def OutputStream.OnFile (s : OutputStream) (fs : FileSystem) : Prop :=
  ∀ loc, s.target = some loc → (fs.bytesAt loc).isSome

namespace FileSystem

variable {fs fs' : FileSystem}

theorem opens_of_bytesAt {loc : Location} (h : (fs.bytesAt loc).isSome) :
    opens (fs.node loc) = true := by
  unfold bytesAt at h
  split at h
  · simp [opens, *]
  · simp [opens, *]
  · cases h

@[simp] theorem store_setting (fs : FileSystem) (loc : Location) (bytes : List UInt8) :
    (fs.store loc bytes).toSetting = fs.toSetting := by
  unfold store
  split <;> rfl

theorem store_node_ne (fs : FileSystem) {loc loc' : Location} (bytes : List UInt8)
    (h : loc' ≠ loc) : (fs.store loc bytes).node loc' = fs.node loc' := by
  unfold store
  split
  · rfl
  · exact put_node_ne fs _ h

theorem store_bytesAt_ne (fs : FileSystem) {loc loc' : Location} (bytes : List UInt8)
    (h : loc' ≠ loc) : (fs.store loc bytes).bytesAt loc' = fs.bytesAt loc' := by
  unfold bytesAt
  rw [store_node_ne fs bytes h]

theorem store_bytesAt_self (fs : FileSystem) (loc : Location) (bytes : List UInt8) :
    (fs.store loc bytes).bytesAt loc =
      some (if fs.node loc = some .device then [] else bytes) := by
  by_cases hdevice : fs.node loc = some .device
  · simp [store, bytesAt, hdevice]
  · simp [store, bytesAt, hdevice]

theorem store_device (fs : FileSystem) (loc loc' : Location) (bytes : List UInt8) :
    (fs.store loc bytes).node loc' = some .device ↔ fs.node loc' = some .device := by
  unfold store
  split
  · rfl
  · rename_i hne
    by_cases hloc : loc' = loc
    · subst hloc
      simp [hne]
    · rw [put_node_ne fs _ hloc]

/-- Storing where a stream can be opened. -/
theorem store_sameNames {loc : Location} (h : opens (fs.node loc) = true) (bytes : List UInt8) :
    SameNames fs (fs.store loc bytes) := by
  unfold store
  split
  · exact .refl fs
  · rename_i hdevice
    refine .put ⟨?_, bytes, rfl⟩
    unfold opens at h
    split at h
    · exact .inl ‹_›
    · exact .inr ⟨_, ‹_›⟩
    · exact absurd ‹_› hdevice
    · cases h

theorem outputTarget_eq_some {p : Path} {loc : Location} :
    fs.outputTarget p = some loc ↔
      fs.resolve p = .ok loc ∧ opens (fs.node loc) = true ∧ fs.writable loc = true := by
  unfold outputTarget
  cases fs.resolve p with
  | error e => simp [Except.toOption]
  | ok loc' => simp [Except.toOption, Option.filter_eq_some_iff]

theorem SameNames.opens (h : SameNames fs fs') (loc : Location) :
    opens (fs'.node loc) = opens (fs.node loc) := by
  rcases h.node loc with heq | ⟨hold | ⟨bytes, hold⟩, bytes', hnew⟩
  · rw [heq]
  · rw [hold, hnew]
    rfl
  · rw [hold, hnew]
    rfl

theorem SameNames.outputTarget (h : SameNames fs fs') (p : Path) :
    fs'.outputTarget p = fs.outputTarget p := by
  have hwritable : fs'.writable = fs.writable := congrArg Setting.writable h.setting
  ext loc
  simp only [FileSystem.outputTarget_eq_some, h.resolve, h.opens, hwritable]

end FileSystem

/-- From `fs` to `fs'` only files at the places `written` have changed. -/
structure WritesOnly (written : Location → Prop) (fs fs' : FileSystem) : Prop where
  same : FileSystem.SameNames fs fs'
  node : ∀ loc, ¬ written loc → fs'.node loc = fs.node loc

namespace WritesOnly

theorem refl (written : Location → Prop) (fs : FileSystem) : WritesOnly written fs fs :=
  ⟨.refl fs, fun _ _ => rfl⟩

theorem trans {written written' : Location → Prop} {fs fs' fs'' : FileSystem}
    (h : WritesOnly written fs fs') (h' : WritesOnly written' fs' fs'') :
    WritesOnly (fun loc => written loc ∨ written' loc) fs fs'' := by
  refine ⟨h.same.trans h'.same, fun loc hloc => ?_⟩
  rw [h'.node loc fun hw => hloc (.inr hw), h.node loc fun hw => hloc (.inl hw)]

theorem mono {written written' : Location → Prop} {fs fs' : FileSystem}
    (h : WritesOnly written fs fs') (himp : ∀ loc, written loc → written' loc) :
    WritesOnly written' fs fs' :=
  ⟨h.same, fun loc hloc => h.node loc fun hw => hloc (himp loc hw)⟩

/-- Where nothing may be written nothing has changed. -/
theorem eq_of_none {written : Location → Prop} {fs fs' : FileSystem} (h : WritesOnly written fs fs')
    (hnone : ∀ loc, ¬ written loc) : fs' = fs :=
  FileSystem.eq_of_node h.same.setting fun loc => h.node loc (hnone loc)

theorem store {fs : FileSystem} {loc : Location} (h : FileSystem.opens (fs.node loc) = true)
    (bytes : List UInt8) : WritesOnly (· = loc) fs (fs.store loc bytes) :=
  ⟨FileSystem.store_sameNames h bytes, fun _ hne => fs.store_node_ne bytes hne⟩

end WritesOnly

/-- Opening a stream changes at most the file it opens. -/
theorem FileSystem.openOutput_frame (fs : FileSystem) (p : Path) :
    (fs.openOutput p).1.target = fs.outputTarget p ∧
      (fs.openOutput p).1.OnFile (fs.openOutput p).2 ∧
      WritesOnly (fun loc => fs.outputTarget p = some loc) fs (fs.openOutput p).2 := by
  unfold openOutput
  cases ht : fs.outputTarget p with
  | none => exact ⟨rfl, fun loc h => (by cases h), .refl _ fs⟩
  | some loc =>
      obtain ⟨-, hopens, -⟩ := outputTarget_eq_some.mp ht
      refine ⟨rfl, ?_, (WritesOnly.store hopens []).mono fun loc' h => by rw [h]⟩
      intro loc' h
      obtain rfl := Option.some.inj h
      simp [store_bytesAt_self]

namespace OutputStream

@[simp] theorem write_target (nl : Newline) (s : OutputStream) (bytes : List UInt8) :
    (s.write nl bytes).target = s.target := by
  unfold write
  split <;> rfl

@[simp] theorem openOutput_room (fs : FileSystem) (p : Path) :
    (fs.openOutput p).2.room = fs.room := by
  unfold FileSystem.openOutput
  split
  · rfl
  · exact congrArg Setting.room (fs.store_setting _ _)

@[simp] theorem flush_target (s : OutputStream) (fs : FileSystem) :
    (s.flush fs).1.target = s.target := by
  unfold flush
  split
  · rfl
  · rename_i loc ht
    split
    · exact ht.symm
    · rfl

/-- A flush changes at most the stream's own file. -/
theorem flush_frame {s : OutputStream} {fs : FileSystem} (hs : s.OnFile fs) :
    WritesOnly (fun loc => s.target = some loc) fs (s.flush fs).2 := by
  unfold flush
  split
  · exact .refl _ fs
  · rename_i loc ht
    split
    · refine (WritesOnly.store ?_ _).mono fun loc' h => by rw [h, ht]
      exact FileSystem.opens_of_bytesAt (hs loc ht)
    · exact .refl _ fs

/-- Files stay files. -/
theorem OnFile.store {s : OutputStream} {fs : FileSystem} (hs : s.OnFile fs) (loc : Location)
    (bytes : List UInt8) : s.OnFile (fs.store loc bytes) := by
  intro loc' ht
  by_cases hloc : loc' = loc
  · subst hloc
    simp [FileSystem.store_bytesAt_self]
  · rw [fs.store_bytesAt_ne bytes hloc]
    exact hs loc' ht

theorem OnFile.open_other {s : OutputStream} {fs : FileSystem} (hs : s.OnFile fs) (p : Path) :
    s.OnFile (fs.openOutput p).2 := by
  unfold FileSystem.openOutput
  split
  · exact hs
  · exact hs.store _ _

theorem OnFile.flush_other {s : OutputStream} {fs : FileSystem} (hs : s.OnFile fs)
    (s' : OutputStream) : s.OnFile (s'.flush fs).2 := by
  unfold flush
  split
  · exact hs
  · split
    · exact hs.store _ _
    · exact hs

theorem OnFile.write {s : OutputStream} {fs : FileSystem} (hs : s.OnFile fs) (nl : Newline)
    (bytes : List UInt8) : (s.write nl bytes).OnFile fs := by
  intro loc ht
  rw [write_target] at ht
  exact hs loc ht

/-! ## When a stream is good -/

/-- The stream was opened on a place with room for `room` bytes and given `n`
bytes. -/
structure Charged (s : OutputStream) (loc : Location) (room n : Nat) : Prop where
  target : s.target = some loc
  fits : s.good = true → s.position + s.buffer.length = n ∧ s.position ≤ room
  lost : s.good = false → room < n

theorem charged_open {fs : FileSystem} {p : Path} {loc : Location}
    (h : fs.outputTarget p = some loc) :
    (fs.openOutput p).1.Charged loc (fs.room loc) 0 := by
  simp only [FileSystem.openOutput, h]
  exact ⟨rfl, fun _ => ⟨rfl, Nat.zero_le _⟩, fun hbad => by cases hbad⟩

theorem Charged.write {s : OutputStream} {loc : Location} {room n : Nat}
    (h : s.Charged loc room n) (nl : Newline) (bytes : List UInt8) :
    (s.write nl bytes).Charged loc room (n + (nl.encode bytes).length) := by
  cases hg : s.good with
  | true =>
      obtain ⟨hlen, hpos⟩ := h.fits hg
      have hw : s.write nl bytes = { s with buffer := s.buffer ++ nl.encode bytes } := by
        unfold OutputStream.write
        rw [if_pos hg]
      rw [hw]
      refine ⟨h.target, fun _ => ⟨?_, hpos⟩, fun hbad => ?_⟩
      · show s.position + (s.buffer ++ nl.encode bytes).length = n + (nl.encode bytes).length
        rw [List.length_append]
        omega
      · exact absurd (hg.symm.trans hbad) (by simp)
  | false =>
      have hw : s.write nl bytes = s := by
        unfold OutputStream.write
        rw [hg]
        rfl
      rw [hw]
      refine ⟨h.target, fun hgood => ?_, fun _ => ?_⟩
      · rw [hg] at hgood
        cases hgood
      · have hlost := h.lost hg
        omega

/-- Once flushed, the stream is good exactly when what it was given fits. -/
theorem Charged.flush {s : OutputStream} {fs : FileSystem} {loc : Location} {n : Nat}
    (h : s.Charged loc (fs.room loc) n) :
    (s.flush fs).1.Charged loc (fs.room loc) n ∧
      ((s.flush fs).1.good = true ↔ n ≤ fs.room loc) := by
  cases hg : s.good with
  | false =>
      have hf : (s.flush fs).1 = s := by
        unfold OutputStream.flush
        rw [h.target, hg]
        rfl
      have hlost := h.lost hg
      rw [hf]
      refine ⟨h, ?_⟩
      rw [hg]
      constructor
      · intro hgood
        cases hgood
      · intro hle
        omega
  | true =>
      obtain ⟨hlen, hpos⟩ := h.fits hg
      simp only [OutputStream.flush, h.target, hg, if_true, decide_eq_true_eq]
      refine ⟨⟨rfl, fun hfits => ?_, fun hlost => ?_⟩, ?_⟩
      · have hle : s.buffer.length ≤ fs.room loc - s.position := of_decide_eq_true hfits
        simp only [List.length_take, List.length_nil]
        omega
      · have hgt : ¬ s.buffer.length ≤ fs.room loc - s.position := of_decide_eq_false hlost
        omega
      · omega

/-- The stream was opened with the target `target` and given `n` bytes. -/
def Fed (s : OutputStream) (target : Option Location) (room : Location → Nat) (n : Nat) : Prop :=
  match target with
  | none => s.target = none ∧ s.good = false
  | some loc => s.Charged loc (room loc) n

theorem fed_open (fs : FileSystem) (p : Path) :
    (fs.openOutput p).1.Fed (fs.outputTarget p) fs.room 0 := by
  cases ht : fs.outputTarget p with
  | none =>
      simp only [FileSystem.openOutput, ht]
      exact ⟨rfl, rfl⟩
  | some loc => exact charged_open ht

theorem Fed.write {s : OutputStream} {target : Option Location} {room : Location → Nat} {n : Nat}
    (h : s.Fed target room n) (nl : Newline) (bytes : List UInt8) :
    (s.write nl bytes).Fed target room (n + (nl.encode bytes).length) := by
  cases target with
  | none =>
      obtain ⟨ht, hg⟩ := h
      have hw : s.write nl bytes = s := by
        unfold OutputStream.write
        rw [hg]
        rfl
      rw [hw]
      exact ⟨ht, hg⟩
  | some loc => exact Charged.write h nl bytes

/-- Once flushed, a stream is good exactly when it was opened and what it was
given fits. -/
theorem Fed.flush {s : OutputStream} {target : Option Location} {room : Location → Nat}
    {fs : FileSystem} {n : Nat} (h : s.Fed target room n) (hroom : fs.room = room) :
    (s.flush fs).1.Fed target room n ∧
      ((s.flush fs).1.good = true ↔ ∃ loc, target = some loc ∧ n ≤ room loc) := by
  subst hroom
  cases target with
  | none =>
      obtain ⟨ht, hg⟩ := h
      have hf : (s.flush fs).1 = s := by
        unfold OutputStream.flush
        rw [ht]
      rw [hf, hg]
      exact ⟨⟨ht, hg⟩, by simp⟩
  | some loc =>
      obtain ⟨hfed, hgood⟩ := Charged.flush h
      exact ⟨hfed, by simp [hgood]⟩

@[simp] theorem flush_room (s : OutputStream) (fs : FileSystem) :
    (s.flush fs).2.room = fs.room := by
  unfold flush
  split
  · rfl
  · split
    · exact congrArg Setting.room (fs.store_setting _ _)
    · rfl

/-! ## What the file holds -/

/-- Overlaying the rest of one prefix of a text on another prefix gives the
longer of the two. -/
theorem overlay_prefix {text given old : List UInt8} {pos : Nat} (hgiven : given <+: text)
    (hold : old <+: text) (hpos : pos ≤ given.length) (hpos' : pos ≤ old.length) :
    overlay old pos (given.drop pos) <+: text ∧
      given.length ≤ (overlay old pos (given.drop pos)).length ∧
      old.length ≤ (overlay old pos (given.drop pos)).length := by
  have hlen : pos + (given.drop pos).length = given.length := by
    rw [List.length_drop]
    omega
  have htake : old.take pos = given.take pos := by
    obtain ⟨a, ha⟩ := hold
    obtain ⟨b, hb⟩ := hgiven
    have hl : old.take pos = text.take pos := by
      rw [← ha, List.take_append_of_le_length hpos']
    have hr : given.take pos = text.take pos := by
      rw [← hb, List.take_append_of_le_length hpos]
    rw [hl, hr]
  have hover : overlay old pos (given.drop pos) = given ++ old.drop given.length := by
    rw [overlay, htake, List.take_append_drop, hlen]
  rw [hover, List.length_append, List.length_drop]
  refine ⟨?_, by omega, by omega⟩
  by_cases hle : old.length ≤ given.length
  · rw [List.drop_eq_nil_of_le hle, List.append_nil]
    exact hgiven
  · have hsub : given <+: old := List.prefix_of_prefix_length_le hgiven hold (by omega)
    obtain ⟨rest, rfl⟩ := hsub
    rw [List.drop_left]
    exact hold

/-- The stream is writing `text` to `loc` and has been given `given` of it.
The file holds what has been flushed, or more, if another stream writes the
same text to it. A device can only take the empty text for its own. -/
structure OnTrack (s : OutputStream) (fs : FileSystem) (loc : Location)
    (text given : List UInt8) : Prop where
  target : s.target = some loc
  good : s.good = true
  begins : given <+: text
  position : s.position ≤ given.length
  buffer : s.buffer = given.drop s.position
  content : ∃ bytes, fs.bytesAt loc = some bytes ∧ bytes <+: text ∧ s.position ≤ bytes.length
  device : fs.node loc = some .device → text = []

/-- What is stored of a text where no device would lose it. -/
theorem store_bytesAt_prefix {fs : FileSystem} {loc : Location} {text bytes : List UInt8}
    (hbytes : bytes <+: text) (hdevice : fs.node loc = some .device → text = []) :
    (fs.store loc bytes).bytesAt loc = some bytes := by
  rw [FileSystem.store_bytesAt_self]
  split
  · rename_i hloc
    rw [hdevice hloc, List.prefix_nil] at hbytes
    rw [hbytes]
  · rfl

theorem onTrack_open {fs : FileSystem} {p : Path} {loc : Location} {text : List UInt8}
    (h : fs.outputTarget p = some loc) (hdevice : fs.node loc = some .device → text = []) :
    (fs.openOutput p).1.OnTrack (fs.openOutput p).2 loc text [] := by
  simp only [FileSystem.openOutput, h]
  exact ⟨rfl, rfl, List.nil_prefix, Nat.le_refl _, rfl,
    ⟨[], store_bytesAt_prefix List.nil_prefix hdevice, List.nil_prefix, Nat.le_refl _⟩,
    fun hdev => hdevice ((fs.store_device loc loc []).mp hdev)⟩

/-- Opening another stream leaves one that has written nothing on track. -/
theorem OnTrack.open_other {s : OutputStream} {fs : FileSystem} {loc : Location}
    {text : List UInt8} (h : s.OnTrack fs loc text []) (p : Path) :
    s.OnTrack (fs.openOutput p).2 loc text [] := by
  obtain ⟨bytes, hfile, hbytes, hle⟩ := h.content
  unfold FileSystem.openOutput
  split
  · exact h
  · rename_i loc' ht
    refine ⟨h.target, h.good, h.begins, h.position, h.buffer, ?_,
      fun hdev => h.device ((fs.store_device loc' loc []).mp hdev)⟩
    by_cases hloc : loc = loc'
    · subst hloc
      exact ⟨[], store_bytesAt_prefix List.nil_prefix h.device, List.nil_prefix, h.position⟩
    · exact ⟨bytes, (fs.store_bytesAt_ne _ hloc).trans hfile, hbytes, hle⟩

theorem OnTrack.write {s : OutputStream} {fs : FileSystem} {loc : Location}
    {text given : List UInt8} (h : s.OnTrack fs loc text given) (nl : Newline)
    (bytes : List UInt8) (hnext : given ++ nl.encode bytes <+: text) :
    (s.write nl bytes).OnTrack fs loc text (given ++ nl.encode bytes) := by
  have hw : s.write nl bytes = { s with buffer := s.buffer ++ nl.encode bytes } := by
    unfold OutputStream.write
    rw [if_pos h.good]
  rw [hw]
  refine ⟨h.target, h.good, hnext, ?_, ?_, h.content, h.device⟩
  · rw [List.length_append]
    exact Nat.le_add_right_of_le h.position
  · rw [List.drop_append_of_le_length h.position, ← h.buffer]

/-- A flush of a text that fits. -/
theorem OnTrack.flush_eq {s : OutputStream} {fs : FileSystem} {loc : Location}
    {text given : List UInt8} (h : s.OnTrack fs loc text given)
    (hroom : text.length ≤ fs.room loc) :
    s.flush fs = (⟨some loc, given.length, [], true⟩, fs.store loc
      (overlay ((fs.bytesAt loc).getD []) s.position (given.drop s.position))) := by
  have hle : given.length ≤ text.length := h.begins.length_le
  have hpos := h.position
  have hlen : s.buffer.length = given.length - s.position := by
    rw [h.buffer, List.length_drop]
  have htake : s.buffer.take (fs.room loc - s.position) = s.buffer :=
    List.take_of_length_le (by omega)
  have hfits : s.buffer.length ≤ fs.room loc - s.position := by omega
  have hnew : s.position + s.buffer.length = given.length := by omega
  simp only [OutputStream.flush, h.target, h.good, if_true, htake, hnew, hfits, decide_true]
  rw [h.buffer]

/-- The file after the flush: a prefix of the text that reaches as far as the
stream and as far as before. -/
theorem OnTrack.flush_content {s : OutputStream} {fs : FileSystem} {loc : Location}
    {text given old : List UInt8} (h : s.OnTrack fs loc text given)
    (hold : fs.bytesAt loc = some old) (hroom : text.length ≤ fs.room loc) :
    ∃ bytes, (s.flush fs).2.bytesAt loc = some bytes ∧ bytes <+: text ∧
      given.length ≤ bytes.length ∧ old.length ≤ bytes.length := by
  obtain ⟨bytes, hfile, hbytes, hpos'⟩ := h.content
  obtain rfl := Option.some.inj (hold.symm.trans hfile)
  obtain ⟨hbegins, hgiven, hle⟩ := overlay_prefix h.begins hbytes h.position hpos'
  rw [h.flush_eq hroom, hold, Option.getD_some]
  exact ⟨_, store_bytesAt_prefix hbegins h.device, hbegins, hgiven, hle⟩

/-- A flush leaves devices devices. -/
theorem flush_device (s : OutputStream) (fs : FileSystem) (loc : Location) :
    (s.flush fs).2.node loc = some .device ↔ fs.node loc = some .device := by
  unfold flush
  split
  · rfl
  · split
    · exact fs.store_device _ _ _
    · rfl

theorem OnTrack.flush {s : OutputStream} {fs : FileSystem} {loc : Location}
    {text given : List UInt8} (h : s.OnTrack fs loc text given)
    (hroom : text.length ≤ fs.room loc) :
    (s.flush fs).1.OnTrack (s.flush fs).2 loc text given := by
  obtain ⟨old, hold, -, -⟩ := h.content
  obtain ⟨bytes, hfile, hbytes, hle, -⟩ := h.flush_content hold hroom
  have hs := congrArg Prod.fst (h.flush_eq hroom)
  rw [hs]
  exact ⟨rfl, rfl, h.begins, Nat.le_refl _, by simp, ⟨bytes, hfile, hbytes, hle⟩,
    fun hdev => h.device ((s.flush_device fs loc).mp hdev)⟩

theorem OnTrack.flush_position {s : OutputStream} {fs : FileSystem} {loc : Location}
    {text given : List UInt8} (h : s.OnTrack fs loc text given)
    (hroom : text.length ≤ fs.room loc) : (s.flush fs).1.position = given.length := by
  rw [h.flush_eq hroom]

/-- A flush of one stream leaves another on track, on another file or with
the same text. -/
theorem OnTrack.flush_other {s s' : OutputStream} {fs : FileSystem} {loc loc' : Location}
    {text text' given given' : List UInt8} (h : s.OnTrack fs loc text given)
    (h' : s'.OnTrack fs loc' text' given') (hroom : text.length ≤ fs.room loc)
    (hsame : loc = loc' → text = text') :
    s'.OnTrack (s.flush fs).2 loc' text' given' := by
  obtain ⟨old, hfile, hold, hpos⟩ := h'.content
  refine ⟨h'.target, h'.good, h'.begins, h'.position, h'.buffer, ?_,
    fun hdev => h'.device ((s.flush_device fs loc').mp hdev)⟩
  by_cases hloc : loc = loc'
  · subst hloc
    obtain ⟨bytes, hfile', hbytes, -, hle⟩ := h.flush_content hfile hroom
    rw [← hsame rfl]
    exact ⟨bytes, hfile', hbytes, Nat.le_trans hpos hle⟩
  · refine ⟨old, ?_, hold, hpos⟩
    rw [h.flush_eq hroom]
    exact (fs.store_bytesAt_ne _ (Ne.symm hloc)).trans hfile

/-- Changes of other files leave a stream on track. -/
theorem OnTrack.frame {s : OutputStream} {fs fs' : FileSystem} {loc : Location}
    {text given : List UInt8} (h : s.OnTrack fs loc text given)
    (hnode : fs'.node loc = fs.node loc) : s.OnTrack fs' loc text given := by
  have hbytes : fs'.bytesAt loc = fs.bytesAt loc := by
    unfold FileSystem.bytesAt
    rw [hnode]
  exact ⟨h.target, h.good, h.begins, h.position, h.buffer, hbytes ▸ h.content, hnode ▸ h.device⟩

/-- A stream that has flushed its whole text has it in the file. -/
theorem OnTrack.finished {s : OutputStream} {fs : FileSystem} {loc : Location}
    {text : List UInt8} (h : s.OnTrack fs loc text text) (hpos : s.position = text.length) :
    fs.bytesAt loc = some text := by
  obtain ⟨bytes, hfile, hbytes, hle⟩ := h.content
  rw [hfile, hbytes.eq_of_length_le (by omega)]

end OutputStream

end PacketDistribution.Lib
