/-
PacketDistribution.Lib.Stdio — `fgets`, `sscanf` and `strstr` of the C
library, over texts as lists of characters.

`fgets` reads up to the end of the line, or until its buffer is full.
`sscanf` follows a list of directives; a conversion with a field width stops
there, and the next one goes on with the same run of characters.

* `readLine_line`, `readLine_full`, `readLine_last`: what `fgets` reads of a
  line, depending on the room in the buffer.
* `sscanf_two_strings`: two conversions `%Ns` yield the first two words of the
  text, the words cut after `N` characters.
* `sscanf_numbers`: conversions `%lld` read back a row of numerals.
-/
import Mathlib.Data.List.Infix
import PacketDistribution.Lib.Numeral

namespace PacketDistribution.Lib

/-! ## Lines, words and pieces -/

/-- The lines of a text, without their line ends. -/
def lines : StdString → List StdString
  | [] => []
  | c :: s =>
      if c = '\n' then [] :: lines s
      else
        match lines s with
        | [] => [[c]]
        | line :: rest => (c :: line) :: rest

/-- The runs of characters that are not white space. -/
def words (s : StdString) : List StdString :=
  match _h : s.dropWhile isSpace with
  | [] => []
  | c :: t => (c :: t.takeWhile fun d => !isSpace d) :: words (t.dropWhile fun d => !isSpace d)
termination_by s.length
decreasing_by
  have hlen := (s.dropWhile_sublist isSpace).length_le
  have hrest := (t.dropWhile_sublist fun d => !isSpace d).length_le
  rw [_h, List.length_cons] at hlen
  omega

/-- A list in pieces of `n` elements, the last one shorter. -/
def cut {α : Type} (n : Nat) : List α → List (List α)
  | [] => []
  | a :: s => (a :: s).take n :: cut n (s.drop (n - 1))
termination_by s => s.length
decreasing_by
  rw [List.length_drop, List.length_cons]
  omega

/-- The part of a character array that is a C string. -/
def cString (s : StdString) : StdString :=
  s.takeWhile (· ≠ '\x00')

/-- Whether `strstr(s, t)` finds an occurrence. -/
def strstr (s t : StdString) : Bool :=
  decide (t <:+: s)

/-! ## `fgets` -/

/-- Read up to `room` characters, not beyond a line end. -/
def readLine : Nat → StdString → StdString × StdString
  | 0, s => ([], s)
  | _ + 1, [] => ([], [])
  | room + 1, c :: s =>
      if c = '\n' then ([c], s) else (c :: (readLine room s).1, (readLine room s).2)

/-- `fgets(buffer, size, stream)`: what is in the buffer, and what is left of
the stream. `none` at the end of the file. -/
def fgets (size : Nat) (stream : StdString) : Option (StdString × StdString) :=
  if stream = [] then none else some (readLine (size - 1) stream)

/-! ## `sscanf` -/

/-- A directive of a format. -/
inductive Directive where
  /-- white space: any amount of it, also none -/
  | space
  | char (c : Char)
  /-- `%lld` -/
  | lld
  /-- `%Ns` with the field width `N` -/
  | string (width : Nat)
  deriving DecidableEq

/-- A converted argument. -/
inductive Scanned where
  | number (v : Int)
  | text (s : StdString)
  deriving DecidableEq

/-- The largest and the smallest 64-bit `long long`. -/
def longLongMax : Int := 9223372036854775807

def longLongMin : Int := -9223372036854775808

/-- `sscanf`: the arguments converted until a directive fails. A number that
is no `long long` is undefined. -/
def sscanf : List Directive → StdString → Option (List Scanned)
  | [], _ => some []
  | .space :: format, s => sscanf format (s.dropWhile isSpace)
  | .char _ :: _, [] => some []
  | .char c :: format, d :: s => if c = d then sscanf format s else some []
  | .lld :: format, s =>
      let (negative, rest) := splitSign (s.dropWhile isSpace)
      let digits := rest.takeWhile Char.isDigit
      let v : Int := if negative then -(Nat.ofDigitChars 10 digits 0 : Int) else Nat.ofDigitChars 10 digits 0
      if digits = [] then some []
      else if longLongMin ≤ v ∧ v ≤ longLongMax then
        (sscanf format (rest.drop digits.length)).map (.number v :: ·)
      else none
  | .string width :: format, s =>
      let field := s.dropWhile isSpace
      let word := (field.take width).takeWhile fun c => !isSpace c
      if word = [] then some []
      else (sscanf format (field.drop word.length)).map (.text word :: ·)

/-! ## What lines are -/

theorem lines_append_newline {line : StdString} (h : '\n' ∉ line) (s : StdString) :
    lines (line ++ '\n' :: s) = line :: lines s := by
  induction line with
  | nil => simp [lines]
  | cons c line ih =>
      simp only [List.mem_cons, not_or] at h
      rw [List.cons_append, lines, if_neg (Ne.symm h.1), ih h.2]

theorem lines_of_not_mem {line : StdString} (h : '\n' ∉ line) (hne : line ≠ []) :
    lines line = [line] := by
  induction line with
  | nil => exact absurd rfl hne
  | cons c line ih =>
      simp only [List.mem_cons, not_or] at h
      rw [lines, if_neg (Ne.symm h.1)]
      cases line with
      | nil => rfl
      | cons d line => rw [ih h.2 (by simp)]

/-- A text is empty, a line without a line end, or a line with one before
another text. -/
theorem line_induction {motive : StdString → Prop} (nil : motive [])
    (last : ∀ line, line ≠ [] → '\n' ∉ line → motive line)
    (cons : ∀ line s, '\n' ∉ line → motive s → motive (line ++ '\n' :: s)) (s : StdString) :
    motive s := by
  induction hn : s.length using Nat.strong_induction_on generalizing s with
  | _ n ih =>
      have hparts := s.takeWhile_append_dropWhile (p := (· ≠ '\n'))
      have hline : '\n' ∉ s.takeWhile (· ≠ '\n') := by
        intro hmem
        simpa using List.mem_takeWhile_imp hmem
      cases hrest : s.dropWhile (· ≠ '\n') with
      | nil =>
          rw [hrest, List.append_nil] at hparts
          by_cases hne : s = []
          · rw [hne]
            exact nil
          · exact last s hne (hparts ▸ hline)
      | cons c rest =>
          have hc : c = '\n' := by
            have hhead := List.head?_dropWhile_not (· ≠ '\n') s
            rw [hrest] at hhead
            simpa using hhead
          rw [hrest, hc] at hparts
          have hlen : rest.length < n := by
            rw [← hn, ← hparts]
            simp only [List.length_append, List.length_cons]
            omega
          rw [← hparts]
          exact cons _ rest hline (ih _ hlen rest rfl)

/-- What follows `head` begins a line, or there is nothing more. -/
def EndsLine (head rest : StdString) : Prop :=
  rest = [] ∨ ∃ s, head = s ++ ['\n']

/-- What is read up to a line end is in lines of the whole text. -/
theorem mem_lines_append {head rest : StdString} (hend : EndsLine head rest) :
    ∀ line ∈ lines head, line ∈ lines (head ++ rest) := by
  induction head using line_induction with
  | nil =>
      intro line hline
      cases hline
  | last line hne hmem =>
      obtain rfl | ⟨t, rfl⟩ := hend
      · rw [List.append_nil]
        exact fun _ hl => hl
      · exact absurd (by simp) hmem
  | cons line s hmem ih =>
      rw [List.append_assoc, List.cons_append, lines_append_newline hmem, lines_append_newline hmem]
      intro l hl
      rcases List.mem_cons.mp hl with rfl | hl
      · exact List.mem_cons_self
      · refine List.mem_cons_of_mem _ (ih ?_ l hl)
        obtain hnil | ⟨t, ht⟩ := hend
        · exact .inl hnil
        · rcases List.eq_nil_or_concat s with rfl | ⟨u, c, rfl⟩
          · cases hl
          · have hlast := congrArg List.getLast? ht
            simp only [List.getLast?_append, List.getLast?_cons] at hlast
            exact .inr ⟨u, by simpa using hlast⟩

/-- Two readings of a text, line by line, agree at every line end exactly when
they agree on every line. -/
theorem flatMap_lines_eq_iff {β : Type} (f g : StdString → List β) (content : StdString) :
    (∀ head rest, content = head ++ rest → EndsLine head rest →
        (lines head).flatMap f = (lines head).flatMap g) ↔
      ∀ line ∈ lines content, f line = g line := by
  constructor
  · induction content using line_induction with
    | nil =>
        intro _ line hline
        cases hline
    | last line hne hmem =>
        intro h l hl
        rw [lines_of_not_mem hmem hne, List.mem_singleton] at hl
        have hwhole := h line [] (List.append_nil line).symm (.inl rfl)
        rw [lines_of_not_mem hmem hne] at hwhole
        simpa [hl] using hwhole
    | cons line s hmem ih =>
        intro h
        have hfirst := h (line ++ ['\n']) s (by simp) (.inr ⟨line, rfl⟩)
        rw [lines_append_newline hmem] at hfirst
        have hline : f line = g line := by simpa [lines] using hfirst
        rw [lines_append_newline hmem, List.forall_mem_cons]
        refine ⟨hline, ih fun head rest hs hend => ?_⟩
        have hlater := h (line ++ '\n' :: head) rest (by simp [hs]) ?_
        · rw [lines_append_newline hmem, List.flatMap_cons, List.flatMap_cons, hline] at hlater
          exact List.append_cancel_left hlater
        · obtain hnil | ⟨t, rfl⟩ := hend
          · exact .inl hnil
          · exact .inr ⟨line ++ '\n' :: t, by simp⟩
  · rintro h head rest rfl hend
    exact List.flatMap_congr fun line hline => h line (mem_lines_append hend line hline)

/-! ## What words and pieces are -/

theorem words_of_isSpace {s : StdString} (h : ∀ c ∈ s, isSpace c = true) : words s = [] := by
  have hnone : s.dropWhile isSpace = [] := List.dropWhile_eq_nil_iff.mpr h
  unfold words
  split
  · rfl
  · rename_i heq
    rw [hnone] at heq
    cases heq

/-- What is empty or begins with white space does not go on with a word. -/
theorem stops_of_isSpace {rest : StdString} (h : ∀ c ∈ rest.head?, isSpace c = true) :
    rest.takeWhile (fun d => !isSpace d) = [] ∧ rest.dropWhile (fun d => !isSpace d) = rest := by
  cases rest with
  | nil => exact ⟨rfl, rfl⟩
  | cons d rest =>
      have hd : isSpace d = true := h d rfl
      simp [hd]

/-- White space, a word and what begins with white space again or is empty. -/
theorem words_append {space word rest : StdString} (hspace : ∀ c ∈ space, isSpace c = true)
    (hword : ∀ c ∈ word, isSpace c = false) (hne : word ≠ [])
    (hrest : ∀ c ∈ rest.head?, isSpace c = true) :
    words (space ++ (word ++ rest)) = word :: words rest := by
  obtain ⟨c, cs, rfl⟩ := List.exists_cons_of_ne_nil hne
  have hc : isSpace c = false := hword c List.mem_cons_self
  have hfield : (space ++ (c :: cs ++ rest)).dropWhile isSpace = c :: (cs ++ rest) := by
    rw [List.dropWhile_append_of_pos hspace, List.cons_append, List.dropWhile_cons_of_neg (by simp [hc])]
  have hcs : ∀ d ∈ cs, (!isSpace d) = true := by
    intro d hd
    simp [hword d (List.mem_cons_of_mem c hd)]
  have hstop := stops_of_isSpace hrest
  rw [words]
  split
  · rename_i heq
    rw [hfield] at heq
    cases heq
  · rename_i c' t heq
    rw [hfield] at heq
    cases heq
    rw [List.takeWhile_append_of_pos hcs, List.dropWhile_append_of_pos hcs, hstop.1, hstop.2,
      List.append_nil]

theorem words_append_word {word rest : StdString} (hword : ∀ c ∈ word, isSpace c = false)
    (hne : word ≠ []) (hrest : ∀ c ∈ rest.head?, isSpace c = true) :
    words (word ++ rest) = word :: words rest :=
  words_append (show ∀ c ∈ [], isSpace c = true by simp) hword hne hrest

/-- A text is white space, or white space before a word that ends at white
space or with the text. -/
theorem words_cases (s : StdString) :
    (∀ c ∈ s, isSpace c = true) ∨
      ∃ space word rest, s = space ++ (word ++ rest) ∧ (∀ c ∈ space, isSpace c = true) ∧
        (∀ c ∈ word, isSpace c = false) ∧ word ≠ [] ∧ ∀ c ∈ rest.head?, isSpace c = true := by
  cases hfield : s.dropWhile isSpace with
  | nil => exact .inl (List.dropWhile_eq_nil_iff.mp hfield)
  | cons c t =>
      have hc : isSpace c = false := by
        have hhead := List.head?_dropWhile_not isSpace s
        rw [hfield] at hhead
        simpa using hhead
      refine .inr ⟨s.takeWhile isSpace, (c :: t).takeWhile fun d => !isSpace d,
        (c :: t).dropWhile fun d => !isSpace d, ?_, ?_, ?_, ?_, ?_⟩
      · rw [List.takeWhile_append_dropWhile, ← hfield, List.takeWhile_append_dropWhile]
      · exact fun d hd => List.mem_takeWhile_imp hd
      · intro d hd
        simpa using List.mem_takeWhile_imp hd
      · simp [hc]
      · intro d hd
        have hhead := List.head?_dropWhile_not (fun d => !isSpace d) (c :: t)
        rw [hd] at hhead
        simpa using hhead

theorem words_dropWhile_isSpace (s : StdString) : words (s.dropWhile isSpace) = words s := by
  obtain hblank | ⟨space, word, rest, rfl, hspace, hword, hne, hrest⟩ := words_cases s
  · rw [List.dropWhile_eq_nil_iff.mpr hblank, words_of_isSpace hblank]
    exact words_of_isSpace fun c hc => by cases hc
  · rw [words_append hspace hword hne hrest, List.dropWhile_append_of_pos hspace]
    obtain ⟨c, cs, rfl⟩ := List.exists_cons_of_ne_nil hne
    rw [List.cons_append, List.dropWhile_cons_of_neg (by simp [hword c List.mem_cons_self])]
    exact words_append_word hword hne hrest

/-- A text is white space, or a word between white space and another text. -/
theorem words_induction {motive : StdString → Prop}
    (blank : ∀ s, (∀ c ∈ s, isSpace c = true) → motive s)
    (word : ∀ space word rest, (∀ c ∈ space, isSpace c = true) → (∀ c ∈ word, isSpace c = false) →
      word ≠ [] → (∀ c ∈ rest.head?, isSpace c = true) → motive rest → motive (space ++ (word ++ rest)))
    (s : StdString) : motive s := by
  induction hn : s.length using Nat.strong_induction_on generalizing s with
  | _ n ih =>
      obtain hs | ⟨space, w, rest, rfl, hspace, hword, hne, hrest⟩ := words_cases s
      · exact blank s hs
      · have hlen : rest.length < n := by
          have hpos := List.length_pos_iff.mpr hne
          rw [← hn]
          simp only [List.length_append]
          omega
        exact word space w rest hspace hword hne hrest (ih _ hlen rest rfl)

/-- White space at the end adds no word. -/
theorem words_append_isSpace (s : StdString) {blank : StdString}
    (hblank : ∀ c ∈ blank, isSpace c = true) : words (s ++ blank) = words s := by
  induction s using words_induction with
  | blank s hs =>
      rw [words_of_isSpace hs]
      refine words_of_isSpace fun c hc => ?_
      exact (List.mem_append.mp hc).elim (hs c) (hblank c)
  | word space word rest hspace hword hne hrest ih =>
      have hrest' : ∀ c ∈ (rest ++ blank).head?, isSpace c = true := by
        intro c hc
        cases rest with
        | nil => exact hblank c (List.mem_of_mem_head? hc)
        | cons d rest => exact hrest c hc
      rw [words_append hspace hword hne hrest, List.append_assoc, List.append_assoc,
        words_append hspace hword hne hrest', ih]

/-- No word is empty, and none contains white space. -/
theorem isSpace_of_mem_words {s w : StdString} (h : w ∈ words s) :
    w ≠ [] ∧ ∀ c ∈ w, isSpace c = false := by
  induction s using words_induction with
  | blank s hs =>
      rw [words_of_isSpace hs] at h
      cases h
  | word space word rest hspace hword hne hrest ih =>
      rw [words_append hspace hword hne hrest, List.mem_cons] at h
      rcases h with rfl | h
      · exact ⟨hne, hword⟩
      · exact ih h

section Cut

variable {α : Type} {n : Nat} {s : List α}

@[simp] theorem cut_nil (n : Nat) : cut n ([] : List α) = [] := by
  rw [cut]

theorem cut_of_ne_nil (hn : 0 < n) (h : s ≠ []) : cut n s = s.take n :: cut n (s.drop n) := by
  obtain ⟨a, s, rfl⟩ := List.exists_cons_of_ne_nil h
  obtain ⟨m, rfl⟩ := Nat.exists_eq_add_of_lt hn
  rw [cut]
  simp

/-- What is no longer than a piece is one piece. -/
theorem cut_of_length_le (h : s ≠ []) (hlen : s.length ≤ n) : cut n s = [s] := by
  have hn : 0 < n := Nat.lt_of_lt_of_le (List.length_pos_iff.mpr h) hlen
  rw [cut_of_ne_nil hn h, List.take_of_length_le hlen, List.drop_of_length_le hlen, cut_nil]

end Cut

theorem cString_of_not_mem {s : StdString} (h : '\x00' ∉ s) : cString s = s := by
  refine List.takeWhile_eq_self_iff.mpr fun c hc => ?_
  simp only [ne_eq, decide_not, Bool.not_eq_eq_eq_not, Bool.not_true, decide_eq_false_iff_not]
  rintro rfl
  exact h hc

/-- A line end after a text does not change the words of its C string. -/
theorem words_cString_append_newline (s : StdString) :
    words (cString (s ++ ['\n'])) = words (cString s) := by
  unfold cString
  rw [List.takeWhile_append]
  split
  · rename_i hlen
    rw [(List.takeWhile_prefix _).eq_of_length hlen]
    exact words_append_isSpace s (by simp [isSpace])
  · rfl

/-! ## What `fgets` reads -/

@[simp] theorem fgets_nil (size : Nat) : fgets size [] = none := rfl

theorem fgets_of_ne_nil (size : Nat) {s : StdString} (h : s ≠ []) :
    fgets size s = some (readLine (size - 1) s) := by
  rw [fgets, if_neg h]

/-- A line that leaves room for its end is read with it. -/
theorem readLine_line {line : StdString} (h : '\n' ∉ line) (s : StdString) {room : Nat}
    (hroom : line.length < room) : readLine room (line ++ '\n' :: s) = (line ++ ['\n'], s) := by
  induction line generalizing room with
  | nil =>
      obtain ⟨room, rfl⟩ := Nat.exists_eq_add_of_lt hroom
      simp [readLine]
  | cons c line ih =>
      simp only [List.mem_cons, not_or] at h
      cases room with
      | zero => cases hroom
      | succ room =>
          rw [List.length_cons] at hroom
          rw [List.cons_append, readLine, if_neg (Ne.symm h.1), ih h.2 (by omega)]
          rfl

/-- Of a longer line the buffer is filled. -/
theorem readLine_full {line : StdString} (h : '\n' ∉ line) (s : StdString) {room : Nat}
    (hroom : room ≤ line.length) :
    readLine room (line ++ s) = (line.take room, line.drop room ++ s) := by
  induction line generalizing room with
  | nil =>
      rw [Nat.le_zero.mp hroom]
      rfl
  | cons c line ih =>
      simp only [List.mem_cons, not_or] at h
      cases room with
      | zero => rfl
      | succ room =>
          rw [List.length_cons] at hroom
          rw [List.cons_append, readLine, if_neg (Ne.symm h.1), ih h.2 (by omega)]
          rfl

/-- A last line without a line end is read whole if there is room. -/
theorem readLine_last {line : StdString} (h : '\n' ∉ line) {room : Nat}
    (hroom : line.length ≤ room) : readLine room line = (line, []) := by
  induction line generalizing room with
  | nil => cases room <;> rfl
  | cons c line ih =>
      simp only [List.mem_cons, not_or] at h
      cases room with
      | zero => cases hroom
      | succ room =>
          rw [List.length_cons] at hroom
          rw [readLine, if_neg (Ne.symm h.1), ih h.2 (by omega)]

/-- With room for a character, something is read. -/
theorem readLine_length_lt {s : StdString} (h : s ≠ []) {room : Nat} (hroom : 0 < room) :
    (readLine room s).2.length < s.length := by
  have hle : ∀ room (s : StdString), (readLine room s).2.length ≤ s.length := by
    intro room s
    induction room generalizing s with
    | zero => exact Nat.le_refl _
    | succ room ih =>
        cases s with
        | nil => exact Nat.le_refl _
        | cons c s =>
            rw [readLine]
            split
            · exact Nat.le_succ _
            · exact Nat.le_succ_of_le (ih s)
  obtain ⟨c, s, rfl⟩ := List.exists_cons_of_ne_nil h
  obtain ⟨room, rfl⟩ := Nat.exists_eq_add_of_lt hroom
  rw [Nat.zero_add, readLine]
  split
  · exact Nat.lt_succ_self _
  · exact Nat.lt_succ_of_le (hle room s)

/-- A successful `fgets` shortens what is left of the stream. -/
theorem fgets_length_lt {size : Nat} (hsize : 1 < size) {s line rest : StdString}
    (h : fgets size s = some (line, rest)) : rest.length < s.length := by
  by_cases hs : s = []
  · rw [hs, fgets_nil] at h
    cases h
  · rw [fgets_of_ne_nil size hs] at h
    have hlt := readLine_length_lt hs (Nat.sub_pos_of_lt hsize)
    rwa [Option.some.inj h] at hlt

/-! ## What `sscanf` converts -/

theorem sscanf_char (c : Char) (format : List Directive) (s : StdString) :
    sscanf (.char c :: format) (c :: s) = sscanf format s := by
  rw [sscanf, if_pos rfl]

/-- White space in a format takes one more white space character. -/
theorem sscanf_space_cons {c : Char} (h : isSpace c = true) (format : List Directive) (s : StdString) :
    sscanf (.space :: format) (c :: s) = sscanf (.space :: format) s := by
  rw [sscanf, sscanf, List.dropWhile_cons_of_pos h]

/-- A conversion `%Ns` takes the first of the words cut after `N`
characters, and leaves the others. -/
theorem sscanf_string {n : Nat} (hn : 0 < n) (s : StdString) :
    (((words s).flatMap (cut n) = [] ∧ ∀ format, sscanf (.string n :: format) s = some []) ∨
      ∃ p s', (words s).flatMap (cut n) = p :: (words s').flatMap (cut n) ∧
        ∀ format, sscanf (.string n :: format) s = (sscanf format s').map (.text p :: ·)) := by
  obtain hblank | ⟨space, word, rest, rfl, hspace, hword, hne, hrest⟩ := words_cases s
  · refine .inl ⟨by rw [words_of_isSpace hblank]; rfl, fun format => ?_⟩
    simp [sscanf, List.dropWhile_eq_nil_iff.mpr hblank]
  · refine .inr ⟨word.take n, word.drop n ++ rest, ?_, fun format => ?_⟩
    · rw [words_append hspace hword hne hrest, List.flatMap_cons, cut_of_ne_nil hn hne, List.cons_append]
      congr 1
      -- what is left of the word is the next word, unless nothing is left
      by_cases hdrop : word.drop n = []
      · rw [hdrop, cut_nil, List.nil_append, List.nil_append]
      · rw [words_append_word (fun c hc => hword c (List.mem_of_mem_drop hc)) hdrop hrest,
          List.flatMap_cons]
    · have hfield : (space ++ (word ++ rest)).dropWhile isSpace = word ++ rest := by
        rw [List.dropWhile_append_of_pos hspace]
        obtain ⟨c, cs, rfl⟩ := List.exists_cons_of_ne_nil hne
        exact List.dropWhile_cons_of_neg (by simp [hword c List.mem_cons_self])
      have htaken : ((word ++ rest).take n).takeWhile (fun c => !isSpace c) = word.take n := by
        rw [← List.take_takeWhile, List.takeWhile_append_of_pos (by simpa using hword),
          (stops_of_isSpace hrest).1, List.append_nil]
      have hne' : word.take n ≠ [] := by
        simpa using ⟨by omega, hne⟩
      have hdrop : (word ++ rest).drop (word.take n).length = word.drop n ++ rest := by
        rw [List.length_take, List.drop_append_of_le_length (Nat.min_le_right _ _)]
        congr 1
        rcases Nat.le_total n word.length with hle | hle
        · rw [Nat.min_eq_left hle]
        · rw [Nat.min_eq_right hle, List.drop_length, List.drop_of_length_le hle]
      simp only [sscanf, hfield, htaken, if_neg hne', hdrop]

/-- Two conversions `%Ns` yield the first two words of the text cut after `N`
characters. -/
theorem sscanf_two_strings {n : Nat} (hn : 0 < n) (s : StdString) :
    sscanf [.string n, .space, .string n] s
      = some ((((words s).flatMap (cut n)).take 2).map .text) := by
  obtain ⟨hnone, hscan⟩ | ⟨p, s', hcut, hscan⟩ := sscanf_string hn s
  · rw [hscan, hnone]
    rfl
  · have hspace : sscanf [.space, .string n] s' = sscanf [.string n] (s'.dropWhile isSpace) := rfl
    rw [hscan, hspace, hcut, ← words_dropWhile_isSpace s']
    obtain ⟨hnone, hscan'⟩ | ⟨q, s'', hcut', hscan'⟩ := sscanf_string hn (s'.dropWhile isSpace)
    · rw [hscan', hnone]
      rfl
    · rw [hscan', hcut']
      rfl

/-- A conversion `%lld` after white space reads a numeral back. -/
theorem sscanf_lld {n : Nat} (hn : (n : Int) ≤ longLongMax) {rest : StdString}
    (hrest : ∀ c ∈ rest.head?, c.isDigit = false) (format : List Directive) :
    sscanf (.space :: .lld :: format) (' ' :: (Nat.toDigits 10 n ++ rest))
      = (sscanf format rest).map (.number n :: ·) := by
  have hdigits : ∀ c ∈ Nat.toDigits 10 n, c.isDigit = true := fun c hc => isDigit_of_mem_toDigits hc
  have hfield : (' ' :: (Nat.toDigits 10 n ++ rest)).dropWhile isSpace = Nat.toDigits 10 n ++ rest :=
    dropWhile_isSpace_append .none rest (List.forall_mem_singleton.mpr (by decide)) hdigits
      Nat.toDigits_ne_nil
  have hfield' : (Nat.toDigits 10 n ++ rest).dropWhile isSpace = Nat.toDigits 10 n ++ rest :=
    dropWhile_isSpace_append .none rest (show ∀ c ∈ [], isSpace c = true by simp) hdigits
      Nat.toDigits_ne_nil
  have hsign : splitSign (Nat.toDigits 10 n ++ rest) = (false, Nat.toDigits 10 n ++ rest) :=
    splitSign_append .none rest hdigits Nat.toDigits_ne_nil
  have hbounds : longLongMin ≤ (n : Int) ∧ (n : Int) ≤ longLongMax := by
    refine ⟨?_, hn⟩
    unfold longLongMin
    omega
  simp only [sscanf, hfield, hfield', hsign, takeWhile_isDigit_append hdigits hrest,
    Nat.ofDigitChars_ten_toDigits, Nat.toDigits_ne_nil, if_false, Bool.false_eq_true, if_pos hbounds,
    List.drop_left]

/-- A row of numerals, each after a blank. -/
def numeralRow (ns : List Nat) : StdString :=
  ns.flatMap fun n => ' ' :: Nat.toDigits 10 n

/-- A row of numerals has only blanks and digits. -/
theorem mem_numeralRow {ns : List Nat} {c : Char} (h : c ∈ numeralRow ns) :
    c = ' ' ∨ c.isDigit = true := by
  obtain ⟨n, -, hc⟩ := List.mem_flatMap.mp h
  rcases List.mem_cons.mp hc with hblank | hdigit
  · exact .inl hblank
  · exact .inr (isDigit_of_mem_toDigits hdigit)

/-- As many conversions `%lld` read a row of numerals back. -/
theorem sscanf_numbers {ns : List Nat} (h : ∀ n ∈ ns, (n : Int) ≤ longLongMax) :
    sscanf (ns.flatMap fun _ => [.space, .lld]) (numeralRow ns) = some (ns.map fun n => .number n) := by
  induction ns with
  | nil => rfl
  | cons n ns ih =>
      have hrest : ∀ c ∈ (numeralRow ns).head?, c.isDigit = false := by
        intro c hc
        cases ns with
        | nil => cases hc
        | cons m ns =>
            cases hc
            rfl
      have hscan := sscanf_lld (h n List.mem_cons_self) hrest (ns.flatMap fun _ => [.space, .lld])
      rw [ih fun m hm => h m (List.mem_cons_of_mem n hm)] at hscan
      exact hscan

end PacketDistribution.Lib
