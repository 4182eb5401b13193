/-
PacketDistribution.Lib.Attacker — what an attacker on the network can build.

Messages are strings over an alphabet `α` of symbols, some of which stand
for cryptographic values. The attacker knows a list of messages, can cut and
join strings, and can apply the operations of a relation `op`, where
`op input output` means that anyone who has `input` can compute `output`.
What no operation produces, such as a signature under a foreign key, can
only be cut out of a known message: `Derives.forall_mem`.
-/
import Mathlib.Data.List.Basic

namespace PacketDistribution.Lib

universe u

variable {α : Type u}

/-- The messages that can be built from `known` with the operations `op`. -/
inductive Derives (op : List α → List α → Prop) (known : List (List α)) : List α → Prop where
  | known {m : List α} : m ∈ known → Derives op known m
  | nil : Derives op known []
  | append {a b : List α} : Derives op known a → Derives op known b → Derives op known (a ++ b)
  | left {a b : List α} : Derives op known (a ++ b) → Derives op known a
  | right {a b : List α} : Derives op known (a ++ b) → Derives op known b
  | apply {a b : List α} : op a b → Derives op known a → Derives op known b

/-- A property of symbols that the known messages have and the operations
keep holds of every symbol of every message that can be built. -/
theorem Derives.forall_mem {op : List α → List α → Prop} {known : List (List α)} {P : α → Prop}
    (hop : ∀ a b, op a b → (∀ x ∈ a, P x) → ∀ x ∈ b, P x)
    (hknown : ∀ m ∈ known, ∀ x ∈ m, P x) {m : List α} (h : Derives op known m) :
    ∀ x ∈ m, P x := by
  induction h with
  | known hm => exact hknown _ hm
  | nil =>
      intro x hx
      cases hx
  | append _ _ iha ihb =>
      intro x hx
      rcases List.mem_append.mp hx with hx | hx
      · exact iha x hx
      · exact ihb x hx
  | left _ ih => exact fun x hx => ih x (List.mem_append_left _ hx)
  | right _ ih => exact fun x hx => ih x (List.mem_append_right _ hx)
  | apply hab _ ih => exact hop _ _ hab ih

/-- Who knows more can build more. -/
theorem Derives.mono {op : List α → List α → Prop} {known more : List (List α)}
    (hsub : known ⊆ more) {m : List α} (h : Derives op known m) : Derives op more m := by
  induction h with
  | known hm => exact .known (hsub hm)
  | nil => exact .nil
  | append _ _ iha ihb => exact .append iha ihb
  | left _ ih => exact .left ih
  | right _ ih => exact .right ih
  | apply hab _ ih => exact .apply hab ih

end PacketDistribution.Lib
