/-
PacketDistribution.Lib.Archive — archives as order-preserving streams of
typed primitives, and records whose one member list drives both saving and
loading.

A type that can be archived says what it saves, how it loads into an
existing object, and what a load of a saved archive leaves in that object:
`copy x y` is the destination `y` after it has been loaded from the archive
of `x`. The law `load_save` is a field, so no value of `Archivable` exists
without it. Whether `copy x y` is `x` is a property of the type, not of the
framework, because a member list may forget a member.

* `Archivable.primitive`, `.via` and `.record` build the formats: one
  token, a conversion through another type, and a member list.
* `Exact` says that a format forgets nothing and accepts nothing it would
  not write; `Exact.record` reduces it to two conditions on the member
  list, `Complete` and `Settled`.
* `loadAll_saveAll` and `saveAll_loadAll` frame sequences of objects of
  different types in one stream.
-/
import Mathlib.Data.List.Basic

namespace PacketDistribution.Lib

/-- A type that saves to and loads from streams of tokens `τ`. Loading
works on an existing object, whose earlier contents it is given. -/
class Archivable (τ : outParam Type) (α : Type) where
  save : α → List τ
  load : α → List τ → Option (α × List τ)
  copy : α → α → α
  load_save : ∀ (x y : α) (rest : List τ), load y (save x ++ rest) = some (copy x y, rest)

open Archivable

/-- A format that loses nothing: a load gives back what was saved, and a
stream that loads is the archive of what it loads to. -/
class Exact (τ : outParam Type) (α : Type) [Archivable τ α] : Prop where
  copy_eq : ∀ x y : α, copy x y = x
  save_load : ∀ {y z : α} {ts rest : List τ}, load y ts = some (z, rest) → ts = save z ++ rest

variable {τ : Type}

/-! ## Primitives and conversions -/

/-- A primitive is one token, recognised by its type tag. -/
@[reducible] def Archivable.primitive {α : Type} (wrap : α → τ) (unwrap : τ → Option α)
    (h : ∀ v, unwrap (wrap v) = some v) : Archivable τ α where
  save x := [wrap x]
  load _ ts :=
    match ts with
    | [] => none
    | t :: rest => (unwrap t).map fun v => (v, rest)
  copy x _ := x
  load_save x y rest := by simp [h]

theorem Exact.primitive {α : Type} (wrap : α → τ) (unwrap : τ → Option α)
    (h : ∀ v, unwrap (wrap v) = some v) (hinv : ∀ t v, unwrap t = some v → t = wrap v) :
    @Exact τ α (.primitive wrap unwrap h) := by
  let _ : Archivable τ α := .primitive wrap unwrap h
  refine ⟨fun _ _ => rfl, ?_⟩
  intro y z ts rest hl
  cases ts with
  | nil => cases hl
  | cons t ts =>
    obtain ⟨v, hv, heq⟩ := Option.map_eq_some_iff.mp hl
    obtain ⟨rfl, rfl⟩ := Prod.mk.inj heq
    rw [hinv t v hv]
    rfl

/-- A type archived through a conversion to another one. The value read is
converted back whatever the destination held. -/
@[reducible] def Archivable.via {α β : Type} [Archivable τ β] (convert : α → β) (back : β → α)
    (h : ∀ x y : α, back (copy (convert x) (convert y)) = x) : Archivable τ α where
  save x := save (convert x)
  load y ts := (load (convert y) ts).map fun p => (back p.1, p.2)
  copy x _ := x
  load_save x y rest := by simp [load_save, h]

theorem Exact.via {α β : Type} [Archivable τ β] [Exact τ β] (convert : α → β) (back : β → α)
    (h : ∀ x y : α, back (copy (convert x) (convert y)) = x)
    (hinv : ∀ v, convert (back v) = v) : @Exact τ α (.via convert back h) := by
  let _ : Archivable τ α := .via convert back h
  refine ⟨fun _ _ => rfl, ?_⟩
  intro y z ts rest hl
  obtain ⟨⟨v, r⟩, hv, heq⟩ := Option.map_eq_some_iff.mp hl
  obtain ⟨rfl, rfl⟩ := Prod.mk.inj heq
  have hsave : save (back v) = save (τ := τ) v := congrArg save (hinv v)
  rw [hsave]
  exact Exact.save_load hv

/-! ## Records -/

/-- One entry of a member list: how the member is read from the record and
how a loaded value is stored in it. -/
structure Member (τ S : Type) where
  type : Type
  [format : Archivable τ type]
  get : S → type
  set : S → type → S

attribute [instance] Member.format

section Record

variable {S : Type}

/-- Saving walks the member list. -/
def saveMembers (ms : List (Member τ S)) (x : S) : List τ :=
  ms.flatMap fun m => save (m.get x)

/-- Loading walks the same list, storing each member as it is read. -/
def loadMembers : List (Member τ S) → S → List τ → Option (S × List τ)
  | [], y, ts => some (y, ts)
  | m :: ms, y, ts => (load (m.get y) ts).bind fun p => loadMembers ms (m.set y p.1) p.2

/-- The destination after its listed members have been loaded from the
archive of `x`; a member the list leaves out keeps its earlier contents. -/
def copyMembers : List (Member τ S) → S → S → S
  | [], _, y => y
  | m :: ms, x, y => copyMembers ms x (m.set y (copy (m.get x) (m.get y)))

theorem loadMembers_saveMembers (ms : List (Member τ S)) (x y : S) (rest : List τ) :
    loadMembers ms y (saveMembers ms x ++ rest) = some (copyMembers ms x y, rest) := by
  induction ms generalizing y with
  | nil => rfl
  | cons m ms ih =>
    have hcons : saveMembers (m :: ms) x ++ rest
        = save (m.get x) ++ (saveMembers ms x ++ rest) := by
      simp [saveMembers]
    rw [hcons, loadMembers, load_save, Option.bind_some, ih]
    rfl

/-- A record archived by its member list. -/
@[reducible] def Archivable.record (ms : List (Member τ S)) : Archivable τ S where
  save := saveMembers ms
  load := loadMembers ms
  copy := copyMembers ms
  load_save := loadMembers_saveMembers ms

/-- The list names enough members to overwrite every destination. -/
def Complete (ms : List (Member τ S)) : Prop :=
  ∀ x y, copyMembers ms x y = x

/-- Storing the members of the list leaves `m` as it is. -/
def Untouched (m : Member τ S) : List (Member τ S) → Prop
  | [] => True
  | m' :: ms => (∀ s v, m.get (m'.set s v) = m.get s) ∧ Untouched m ms

/-- Every member of the list holds the value stored in it until the end of
the load, so no member is listed twice. -/
def Settled : List (Member τ S) → Prop
  | [] => True
  | m :: ms =>
    Exact τ m.type ∧ (∀ s v, m.get (m.set s v) = v) ∧ Untouched m ms ∧ Settled ms

/-- Loading the rest of the list leaves an untouched member alone. -/
theorem get_of_loadMembers {m : Member τ S} {ms : List (Member τ S)} (hu : Untouched m ms)
    {y z : S} {ts rest : List τ} (hl : loadMembers ms y ts = some (z, rest)) :
    m.get z = m.get y := by
  induction ms generalizing y ts with
  | nil =>
    obtain ⟨rfl, -⟩ := Prod.mk.inj (Option.some.inj hl)
    rfl
  | cons m' ms ih =>
    obtain ⟨hset, hrest⟩ := hu
    obtain ⟨⟨v, ts'⟩, -, hl⟩ := Option.bind_eq_some_iff.mp hl
    rw [ih hrest hl, hset]

theorem saveMembers_of_loadMembers {ms : List (Member τ S)} (hs : Settled ms)
    {y z : S} {ts rest : List τ} (hl : loadMembers ms y ts = some (z, rest)) :
    ts = saveMembers ms z ++ rest := by
  induction ms generalizing y ts with
  | nil =>
    obtain ⟨-, rfl⟩ := Prod.mk.inj (Option.some.inj hl)
    rfl
  | cons m ms ih =>
    obtain ⟨hexact, hset, hu, hrest⟩ := hs
    obtain ⟨⟨v, ts'⟩, hv, hl⟩ := Option.bind_eq_some_iff.mp hl
    have hz : m.get z = v := by rw [get_of_loadMembers hu hl, hset]
    have hts' : ts' = saveMembers ms z ++ rest := ih hrest hl
    calc
      ts = save v ++ ts' := hexact.save_load hv
      _ = save (m.get z) ++ (saveMembers ms z ++ rest) := by rw [hz, hts']
      _ = saveMembers (m :: ms) z ++ rest := by simp [saveMembers]

/-- A record is exact when its member list is complete and settled. For a list
that is written out, storing every member rebuilds the record by definition,
and `Settled` is a conjunction over the pairs of lines, each of which holds by
definition too: the two default proofs. -/
theorem Exact.record {ms : List (Member τ S)} (hc : Complete ms := by exact fun _ _ => rfl)
    (hs : Settled ms := by
      repeat' first | exact trivial | exact fun _ _ => rfl | infer_instance | apply And.intro) :
    @Exact τ S (.record ms) :=
  let _ : Archivable τ S := .record ms
  ⟨hc, saveMembers_of_loadMembers hs⟩

end Record

/-! ## Consequences of the laws -/

section Laws

variable {α : Type} [Archivable τ α]

/-- A destination that `copy` leaves different from the source is a failed
round trip, and the only one. -/
theorem load_save_iff {x y : α} : load y (save x) = some (x, ([] : List τ)) ↔ copy x y = x := by
  have h := load_save x y ([] : List τ)
  rw [List.append_nil] at h
  rw [h]
  simp

/-- Equal archives overwrite a destination alike. -/
theorem copy_eq_of_save_eq {x x' : α} (h : save x = save (τ := τ) x') (y : α) :
    copy x y = copy x' y := by
  have hx := load_save x y ([] : List τ)
  rw [h, load_save] at hx
  exact (Prod.mk.inj (Option.some.inj hx)).1.symm

end Laws

/-! ## Sequences in one stream -/

section Sequence

variable {κ : Type} {T : κ → Type} [∀ k, Archivable τ (T k)]

/-- Saving objects of different types one after another. -/
def saveAll (xs : List (Σ k, T k)) : List τ :=
  xs.flatMap fun x => save x.2

/-- Loading a sequence into existing objects, whose types direct the load. -/
def loadAll : List (Σ k, T k) → List τ → Option (List (Σ k, T k) × List τ)
  | [], ts => some ([], ts)
  | ⟨k, y⟩ :: ys, ts =>
    (load y ts).bind fun p => (loadAll ys p.2).map fun q => (⟨k, p.1⟩ :: q.1, q.2)

/-- The sequence that was saved comes back, whatever the destinations held
and whatever follows it in the stream. -/
theorem loadAll_saveAll [∀ k, Exact τ (T k)] (xs ys : List (Σ k, T k)) (rest : List τ)
    (h : ys.map (·.1) = xs.map (·.1)) :
    loadAll ys (saveAll xs ++ rest) = some (xs, rest) := by
  induction xs generalizing ys with
  | nil =>
    obtain rfl : ys = [] := List.map_eq_nil_iff.mp h
    rfl
  | cons x xs ih =>
    obtain ⟨⟨k, y⟩, ys, rfl, hk, hys⟩ := List.map_eq_cons_iff.mp h
    obtain ⟨k', x⟩ := x
    obtain rfl : k = k' := hk
    have hcons : saveAll (⟨k, x⟩ :: xs) ++ rest = save x ++ (saveAll xs ++ rest) := by
      simp [saveAll]
    rw [hcons, loadAll, load_save, Option.bind_some, Exact.copy_eq, ih ys hys]
    rfl

/-- A stream that loads begins with the archive of what it loads to, and
the loaded sequence has the types of the destinations. -/
theorem saveAll_loadAll [∀ k, Exact τ (T k)] {ys zs : List (Σ k, T k)} {ts rest : List τ}
    (h : loadAll ys ts = some (zs, rest)) :
    ts = saveAll zs ++ rest ∧ zs.map (·.1) = ys.map (·.1) := by
  induction ys generalizing ts zs with
  | nil =>
    obtain ⟨rfl, rfl⟩ := Prod.mk.inj (Option.some.inj h)
    exact ⟨rfl, rfl⟩
  | cons y ys ih =>
    obtain ⟨k, y⟩ := y
    obtain ⟨⟨z, ts'⟩, hz, h⟩ := Option.bind_eq_some_iff.mp h
    obtain ⟨⟨zs', rest'⟩, hzs, heq⟩ := Option.map_eq_some_iff.mp h
    obtain ⟨rfl, rfl⟩ := Prod.mk.inj heq
    have hts' : ts' = saveAll zs' ++ rest' := (ih hzs).1
    have hkinds : zs'.map (·.1) = ys.map (·.1) := (ih hzs).2
    refine ⟨?_, by simp [hkinds]⟩
    calc
      ts = save z ++ ts' := Exact.save_load hz
      _ = save z ++ (saveAll zs' ++ rest') := by rw [hts']
      _ = saveAll (⟨k, z⟩ :: zs') ++ rest' := by simp [saveAll]

end Sequence

end PacketDistribution.Lib
