/-
PacketDistribution.Lib.Numeral — `std::to_string` and `std::stoi` on a
32-bit `int`, over strings as lists of characters.

`stoi` follows the documented behaviour of the C++ function: leading white
space is skipped, one sign is optional, the longest run of decimal digits
is read and what follows it is ignored; no digit at all is
`std::invalid_argument`, a value outside `int` is `std::out_of_range`.

* `stoi_toStdString`: `stoi` undoes `to_string` on every `int`.
* `toStdString_natCast_injective`: two naturals never share a numeral.
* `stoi_eq_ok_iff`: the strings `stoi` accepts, and with which value.
-/
import Mathlib.Data.List.TakeWhile
import Mathlib.Logic.Function.Defs

namespace PacketDistribution.Lib

/-- `std::string`: one `Char` for each `char`. -/
abbrev StdString := List Char

/-- The largest 32-bit `int`. -/
def intMax : Int := 2147483647

/-- The smallest 32-bit `int`. -/
def intMin : Int := -2147483648

/-- `std::isspace` in the default locale. -/
def isSpace (c : Char) : Bool :=
  c == ' ' || c == '\t' || c == '\n' || c == '\x0b' || c == '\x0c' || c == '\r'

/-- The two exceptions of `std::stoi`. -/
inductive StoiError where
  | invalidArgument
  | outOfRange
  deriving DecidableEq, Repr

/-- The optional sign: whether it is a minus, and what follows it. -/
def splitSign : StdString → Bool × StdString
  | '-' :: s => (true, s)
  | '+' :: s => (false, s)
  | s => (false, s)

/-- The value of a digit run under a sign, if it is an `int`. -/
def boundedInt (negative : Bool) (digits : StdString) : Except StoiError Int :=
  let magnitude : Int := Nat.ofDigitChars 10 digits 0
  let v := if negative then -magnitude else magnitude
  if intMin ≤ v ∧ v ≤ intMax then .ok v else .error .outOfRange

/-- `std::stoi(s)`. -/
def stoi (s : StdString) : Except StoiError Int :=
  let (negative, rest) := splitSign (s.dropWhile isSpace)
  let digits := rest.takeWhile Char.isDigit
  if digits = [] then .error .invalidArgument else boundedInt negative digits

/-- `std::to_string(v)`. -/
def toStdString (v : Int) : StdString :=
  if v < 0 then '-' :: Nat.toDigits 10 v.natAbs else Nat.toDigits 10 v.natAbs

/-! ## Numerals -/

/-- Every character of a numeral is a digit. -/
theorem isDigit_of_mem_toDigits {n : Nat} {c : Char} (h : c ∈ Nat.toDigits 10 n) :
    c.isDigit = true :=
  Nat.isDigit_of_mem_toDigits (by decide) (by decide) h

/-- A digit is neither white space nor a sign. -/
theorem isSpace_of_isDigit {c : Char} (h : c.isDigit = true) :
    isSpace c = false ∧ c ≠ '-' ∧ c ≠ '+' := by
  have hne : ∀ d : Char, d.isDigit = false → c ≠ d := by
    intro d hd hcd
    rw [hcd, hd] at h
    cases h
  refine ⟨?_, hne '-' (by decide), hne '+' (by decide)⟩
  simp only [isSpace, Bool.or_eq_false_iff, beq_eq_false_iff_ne]
  refine ⟨⟨⟨⟨⟨?_, ?_⟩, ?_⟩, ?_⟩, ?_⟩, ?_⟩ <;> exact hne _ (by decide)

/-- The digits of a numeral are taken whole. -/
theorem takeWhile_isDigit_toDigits (n : Nat) :
    (Nat.toDigits 10 n).takeWhile Char.isDigit = Nat.toDigits 10 n :=
  List.takeWhile_eq_self_iff.mpr fun _ hc => isDigit_of_mem_toDigits hc

/-- A numeral starts with neither white space nor a sign, so both scans of
`stoi` pass over it unchanged. -/
theorem splitSign_dropWhile_toDigits (n : Nat) :
    splitSign ((Nat.toDigits 10 n).dropWhile isSpace) = (false, Nat.toDigits 10 n) := by
  cases hd : Nat.toDigits 10 n with
  | nil => exact absurd hd Nat.toDigits_ne_nil
  | cons c cs =>
    have hc : c.isDigit = true := isDigit_of_mem_toDigits (n := n) (by simp [hd])
    obtain ⟨hsp, hminus, hplus⟩ := isSpace_of_isDigit hc
    rw [List.dropWhile_cons_of_neg (by simp [hsp])]
    unfold splitSign
    split
    · rename_i heq; exact absurd (List.cons.inj heq).1 hminus
    · rename_i heq; exact absurd (List.cons.inj heq).1 hplus
    · rfl

/-- `stoi` on an unsigned numeral. -/
theorem stoi_toDigits (n : Nat) :
    stoi (Nat.toDigits 10 n) = boundedInt false (Nat.toDigits 10 n) := by
  unfold stoi
  rw [splitSign_dropWhile_toDigits]
  simp only [takeWhile_isDigit_toDigits, Nat.toDigits_ne_nil, if_false]

/-- `stoi` on a numeral after a minus sign. -/
theorem stoi_minus_toDigits (n : Nat) :
    stoi ('-' :: Nat.toDigits 10 n) = boundedInt true (Nat.toDigits 10 n) := by
  unfold stoi
  rw [List.dropWhile_cons_of_neg (by decide)]
  simp only [splitSign, takeWhile_isDigit_toDigits, Nat.toDigits_ne_nil, if_false]

/-- `std::stoi` undoes `std::to_string` on every `int`. -/
theorem stoi_toStdString {v : Int} (hmin : intMin ≤ v) (hmax : v ≤ intMax) :
    stoi (toStdString v) = .ok v := by
  unfold toStdString
  split
  · have hv : -(v.natAbs : Int) = v := by omega
    rw [stoi_minus_toDigits]
    simp only [boundedInt, Nat.ofDigitChars_ten_toDigits, if_true, hv]
    exact if_pos ⟨hmin, hmax⟩
  · have hv : (v.natAbs : Int) = v := by omega
    rw [stoi_toDigits]
    simp only [boundedInt, Nat.ofDigitChars_ten_toDigits, Bool.false_eq_true, if_false, hv]
    exact if_pos ⟨hmin, hmax⟩

/-- Two natural numbers never share a numeral. -/
theorem toStdString_natCast_injective :
    Function.Injective fun n : Nat => toStdString (n : Int) := by
  intro a b h
  have hdigits : ∀ n : Nat, toStdString (n : Int) = Nat.toDigits 10 n := by
    intro n
    have hn : ¬ (n : Int) < 0 := by omega
    simp [toStdString, hn]
  simp only [hdigits] at h
  have hread := congrArg (fun ds => Nat.ofDigitChars 10 ds 0) h
  simpa using hread

/-! ## The accepted strings -/

/-- The sign of a numeral. -/
inductive Sign where
  | none
  | plus
  | minus
  deriving DecidableEq, Repr

/-- The sign as it is written. -/
def Sign.text : Sign → StdString
  | .none => []
  | .plus => ['+']
  | .minus => ['-']

/-- The value of a magnitude under the sign. -/
def Sign.apply (sign : Sign) (magnitude : Nat) : Int :=
  if sign = .minus then -(magnitude : Int) else magnitude

/-- `s` is white space, a sign and a run of digits that denotes `v`,
followed by anything that does not continue the run. -/
structure Denotes (s : StdString) (v : Int) (space digits rest : StdString) (sign : Sign) :
    Prop where
  parts : s = space ++ (sign.text ++ (digits ++ rest))
  space_isSpace : ∀ c ∈ space, isSpace c = true
  digits_isDigit : ∀ c ∈ digits, c.isDigit = true
  digits_ne_nil : digits ≠ []
  rest_stops : ∀ c ∈ rest.head?, c.isDigit = false
  value : v = sign.apply (Nat.ofDigitChars 10 digits 0)

/-- The string begins, after white space, with a numeral of `v`. -/
def ReadsAs (s : StdString) (v : Int) : Prop :=
  ∃ space digits rest sign, Denotes s v space digits rest sign

/-- `splitSign` splits off exactly a sign. -/
theorem splitSign_text (s : StdString) :
    ∃ sign : Sign, s = sign.text ++ (splitSign s).2 ∧ (splitSign s).1 = decide (sign = .minus) := by
  unfold splitSign
  split
  · exact ⟨.minus, rfl, rfl⟩
  · exact ⟨.plus, rfl, rfl⟩
  · exact ⟨.none, rfl, rfl⟩

/-- Before a digit, the sign that was written is the one split off. -/
theorem splitSign_append (sign : Sign) {digits : StdString} (rest : StdString)
    (hdigits : ∀ c ∈ digits, c.isDigit = true) (hne : digits ≠ []) :
    splitSign (sign.text ++ (digits ++ rest)) = (decide (sign = .minus), digits ++ rest) := by
  obtain ⟨c, cs, rfl⟩ := List.exists_cons_of_ne_nil hne
  obtain ⟨-, hminus, hplus⟩ := isSpace_of_isDigit (hdigits c List.mem_cons_self)
  cases sign with
  | minus => rfl
  | plus => rfl
  | none =>
    show splitSign (c :: (cs ++ rest)) = (false, c :: (cs ++ rest))
    unfold splitSign
    split
    · rename_i heq; exact absurd (List.cons.inj heq).1 hminus
    · rename_i heq; exact absurd (List.cons.inj heq).1 hplus
    · rfl

/-- A sign or a digit stops the scan over white space. -/
theorem dropWhile_isSpace_append (sign : Sign) {space digits : StdString} (rest : StdString)
    (hspace : ∀ c ∈ space, isSpace c = true) (hdigits : ∀ c ∈ digits, c.isDigit = true)
    (hne : digits ≠ []) :
    (space ++ (sign.text ++ (digits ++ rest))).dropWhile isSpace
      = sign.text ++ (digits ++ rest) := by
  rw [List.dropWhile_append_of_pos hspace]
  obtain ⟨c, cs, rfl⟩ := List.exists_cons_of_ne_nil hne
  have hc := (isSpace_of_isDigit (hdigits c List.mem_cons_self)).1
  cases sign with
  | none => exact List.dropWhile_cons_of_neg (by simp [hc])
  | plus => rfl
  | minus => rfl

/-- The run of digits ends where the rest begins. -/
theorem takeWhile_isDigit_append {digits rest : StdString}
    (hdigits : ∀ c ∈ digits, c.isDigit = true) (hrest : ∀ c ∈ rest.head?, c.isDigit = false) :
    (digits ++ rest).takeWhile Char.isDigit = digits := by
  rw [List.takeWhile_append_of_pos hdigits]
  cases rest with
  | nil => simp
  | cons c cs =>
    have hc : c.isDigit = false := hrest c rfl
    simp [hc]

theorem boundedInt_eq_ok_iff {negative : Bool} {digits : StdString} {v : Int} :
    boundedInt negative digits = .ok v ↔
      v = (if negative then -(Nat.ofDigitChars 10 digits 0 : Int) else Nat.ofDigitChars 10 digits 0) ∧
        intMin ≤ v ∧ v ≤ intMax := by
  unfold boundedInt
  dsimp only
  generalize (if negative then -(Nat.ofDigitChars 10 digits 0 : Int)
    else Nat.ofDigitChars 10 digits 0) = w
  split
  · rename_i hw
    simp only [Except.ok.injEq]
    exact ⟨fun h => ⟨h.symm, h ▸ hw⟩, fun h => h.1.symm⟩
  · rename_i hw
    simp only [reduceCtorEq, false_iff]
    rintro ⟨rfl, hv⟩
    exact hw hv

/-- `std::stoi` accepts exactly the strings that begin with a numeral of an
`int`, and returns what the numeral denotes. -/
theorem stoi_eq_ok_iff {s : StdString} {v : Int} :
    stoi s = .ok v ↔ ReadsAs s v ∧ intMin ≤ v ∧ v ≤ intMax := by
  constructor
  · intro h
    obtain ⟨sign, hsign, hneg⟩ := splitSign_text (s.dropWhile isSpace)
    unfold stoi at h
    generalize splitSign (s.dropWhile isSpace) = w at h hsign hneg
    obtain ⟨negative, rest⟩ := w
    dsimp only at h hsign hneg
    split at h
    · cases h
    · rename_i hne
      obtain ⟨hv, hbound⟩ := boundedInt_eq_ok_iff.mp h
      refine ⟨⟨s.takeWhile isSpace, rest.takeWhile Char.isDigit, rest.dropWhile Char.isDigit, sign,
        ?_, ?_, ?_, hne, ?_, ?_⟩, hbound⟩
      · rw [List.takeWhile_append_dropWhile, ← hsign, List.takeWhile_append_dropWhile]
      · exact fun c hc => List.mem_takeWhile_imp hc
      · exact fun c hc => List.mem_takeWhile_imp hc
      · intro c hc
        have hhead := List.head?_dropWhile_not Char.isDigit rest
        rw [hc] at hhead
        exact hhead
      · rw [hv, hneg]
        simp only [Sign.apply, decide_eq_true_eq]
  · rintro ⟨⟨space, digits, rest, sign, h⟩, hbound⟩
    unfold stoi
    rw [h.parts, dropWhile_isSpace_append sign rest h.space_isSpace h.digits_isDigit h.digits_ne_nil,
      splitSign_append sign rest h.digits_isDigit h.digits_ne_nil]
    dsimp only
    rw [takeWhile_isDigit_append h.digits_isDigit h.rest_stops, if_neg h.digits_ne_nil]
    refine boundedInt_eq_ok_iff.mpr ⟨?_, hbound⟩
    rw [h.value]
    simp [Sign.apply]

end PacketDistribution.Lib
