/-
PacketDistribution.Node.CountsTheorems — what the counts of a node count.

* `getProcessCount_eq`: the words of the file that begin with a digit, as long
  as an `int` holds their number. `/proc` is a directory, so there are none.
* `getOpenSocketCount_eq`: the pairs of a process and a descriptor for which
  `lstat` answers that there is a socket. The entries of `/proc/<pid>/fd` are
  links, so there are none (`getOpenSocketCount_links`).
* `getOpenFileHandleCount_eq`: the descriptors listed, the one of the listing
  included.
-/
import Mathlib.Algebra.GroupWithZero.Nat
import PacketDistribution.Node.Counts

namespace PacketDistribution.Node.Linux

open PacketDistribution.Lib

/-! ## Counters -/

theorem asInt_of_le {n : Nat} (h : (n : Int) ≤ intMax) : asInt n = some n := if_pos h

/-- A counter that overflows on the way overflows at the end. -/
theorem asInt_bind (a b : Nat) : ((asInt a).bind fun k => asInt (k + b)) = asInt (a + b) := by
  unfold asInt
  by_cases h : (a : Int) ≤ intMax
  · rw [if_pos h, Option.bind_some]
  · have hsum : ¬ ((a + b : Nat) : Int) ≤ intMax := by omega
    rw [if_neg h, if_neg hsum, Option.bind_none]

/-- A loop that goes on from every `int` as from a counter. -/
theorem asInt_bind_of_le {f : Nat → Option Nat} {b : Nat}
    (hf : ∀ k : Nat, (k : Int) ≤ intMax → f k = asInt (k + b)) (a : Nat) :
    (asInt a).bind f = asInt (a + b) := by
  rw [← asInt_bind]
  unfold asInt
  by_cases h : (a : Int) ≤ intMax
  · rw [if_pos h, Option.bind_some, hf a h, Option.bind_some]
    rfl
  · rw [if_neg h, Option.bind_none, Option.bind_none]

/-! ## Processes -/

/-- The text a source has. -/
def Source.text : Source → StdString
  | .file content => content
  | _ => []

/-- A word is what `>>` extracts, unless there is none. -/
theorem words_eq_extract (s : StdString) :
    words s =
      if s.dropWhile isSpace = [] then []
      else ((s.dropWhile isSpace).takeWhile fun c => !isSpace c) ::
        words ((s.dropWhile isSpace).dropWhile fun c => !isSpace c) := by
  obtain hblank | ⟨space, word, rest, rfl, hspace, hword, hne, hrest⟩ := words_cases s
  · rw [if_pos (List.dropWhile_eq_nil_iff.mpr hblank), words_of_isSpace hblank]
  · obtain ⟨c, cs, rfl⟩ := List.exists_cons_of_ne_nil hne
    have hfield : (space ++ (c :: cs ++ rest)).dropWhile isSpace = c :: cs ++ rest := by
      rw [List.dropWhile_append_of_pos hspace, List.cons_append,
        List.dropWhile_cons_of_neg (by simp [hword c List.mem_cons_self])]
    have hall : ∀ d ∈ c :: cs, (!isSpace d) = true := fun d hd => by simp [hword d hd]
    obtain ⟨htake, hdrop⟩ := stops_of_isSpace hrest
    rw [hfield, if_neg (by simp), List.takeWhile_append_of_pos hall,
      List.dropWhile_append_of_pos hall, htake, hdrop, List.append_nil]
    exact words_append hspace hword hne hrest

/-- A word at the end of the input is counted before the stream turns bad; a
stream that turns bad without a word counts nothing. -/
theorem processLoop_eq (procDir : Ifstream) (processCount : Nat)
    (hcount : (processCount : Int) ≤ intMax) :
    processLoop procDir processCount = asInt (processCount +
      if procDir.good then (words procDir.rest).countP startsWithDigit else 0) := by
  induction procDir, processCount using processLoop.induct with
  | case1 procDir count hgood ih =>
      rw [processLoop, dif_pos hgood, if_pos hgood]
      have hextract : procDir.extract = (((procDir.rest.dropWhile isSpace).takeWhile fun c => !isSpace c),
          ⟨!((procDir.rest.dropWhile isSpace).dropWhile fun c => !isSpace c).isEmpty,
            (procDir.rest.dropWhile isSpace).dropWhile fun c => !isSpace c⟩) := by
        rw [Ifstream.extract, if_pos hgood]
      have hnext : ∀ digit : Bool, (if digit then asInt (count + 1) else some count) =
          asInt (count + digit.toNat) := by
        intro digit
        cases digit with
        | true => rw [if_pos rfl, Bool.toNat_true]
        | false => rw [if_neg Bool.false_ne_true, Bool.toNat_false, Nat.add_zero, asInt_of_le hcount]
      dsimp only
      rw [hnext, asInt_bind_of_le ih, Nat.add_assoc, hextract, words_eq_extract procDir.rest]
      refine congrArg (fun n => asInt (count + n)) ?_
      generalize procDir.rest.dropWhile isSpace = field
      cases field with
      | nil => simp [startsWithDigit]
      | cons c cs =>
          rw [if_neg (List.cons_ne_nil c cs), List.countP_cons]
          -- without anything left the stream is bad, and there is no other word
          cases hrest : (c :: cs).dropWhile fun c => !isSpace c with
          | nil =>
              have hnone : words [] = [] := words_of_isSpace (by simp)
              simp only [hnone, List.isEmpty_nil, List.countP_nil]
              cases startsWithDigit _ <;> rfl
          | cons d rest =>
              simp only [List.isEmpty_cons, Bool.not_false, if_true]
              cases startsWithDigit _ <;> simp [Nat.add_comm]
  | case2 procDir count hbad =>
      rw [processLoop, dif_neg hbad, if_neg hbad, Nat.add_zero, asInt_of_le hcount]

/-- The words of the file that begin with a digit, whatever the white space
between them, as long as an `int` holds their number. Of a directory no
process is counted. -/
theorem getProcessCount_eq (proc : Source) :
    getProcessCount proc = asInt ((words proc.text).countP startsWithDigit) ∧
      getProcessCount .directory = some 0 := by
  have hnone : words [] = [] := words_of_isSpace (by simp)
  have hcount : ∀ proc, getProcessCount proc = asInt ((words proc.text).countP startsWithDigit) := by
    intro proc
    rw [getProcessCount, processLoop_eq _ 0 (by decide), Nat.zero_add]
    cases proc with
    | missing => simp [Ifstream.ofSource, Source.text, hnone]
    | directory => simp [Ifstream.ofSource, Source.text]
    | file content => simp [Ifstream.ofSource, Source.text]
  refine ⟨hcount proc, ?_⟩
  rw [hcount, Source.text, hnone, List.countP_nil]
  · rfl
  · simp

/-! ## Sockets -/

/-- The processes of a system, and of each the descriptors that are listed, if
its directory can be opened; and what `lstat` says of an entry. -/
structure ProcFs where
  processes : List Nat
  descriptors : Nat → Option (List Nat)
  type : Nat → Nat → FileType

/-- The descriptors of a process that are sockets to `lstat`. -/
def ProcFs.sockets (proc : ProcFs) (pid : Nat) : Nat :=
  ((proc.descriptors pid).getD []).countP fun fd => proc.type pid fd = .socket

/-- The names of a directory that begin with a digit are the numerals of
`ns`, each an `int`. -/
structure Lists (names : List StdString) (ns : List Nat) : Prop where
  numerals : names.filter startsWithDigit = ns.map fun n : Nat => toStdString (n : Int)
  small : ∀ n ∈ ns, (n : Int) ≤ intMax

/-- The answers of the system are those of `proc`. -/
structure Shows (os : System) (proc : ProcFs) : Prop where
  processes : ∃ names, os.opendir ['/', 'p', 'r', 'o', 'c'] = some names ∧
    Lists names proc.processes
  unreadable : ∀ pid ∈ proc.processes, proc.descriptors pid = none → os.opendir (procPath pid) = none
  readable : ∀ pid ∈ proc.processes, ∀ fds, proc.descriptors pid = some fds →
    ∃ names, os.opendir (procPath pid) = some names ∧ Lists names fds
  lstat : ∀ pid ∈ proc.processes, ∀ fds, proc.descriptors pid = some fds → ∀ fd ∈ fds,
    os.lstat (fdPath pid fd) = some (proc.type pid fd)

theorem atoi_numeral {n : Nat} (h : (n : Int) ≤ intMax) : atoi (toStdString n) = some (n : Int) := by
  have hmin : intMin ≤ (n : Int) := by
    have hneg : intMin ≤ 0 := by decide
    omega
  rw [atoi, stoi_toStdString hmin h]

/-- A loop over a directory that passes over other names is a loop over its
numerals, and counts what they weigh. -/
theorem foldlM_numerals {names : List StdString} {ns : List Nat} (h : Lists names ns)
    {step : Nat → StdString → Option Nat} (weight : Nat → Nat)
    (hskip : ∀ k name, startsWithDigit name = false → step k name = some k)
    (hstep : ∀ k : Nat, (k : Int) ≤ intMax →
      ∀ n ∈ ns, step k (toStdString (n : Int)) = asInt (k + weight n))
    (k : Nat) (hk : (k : Int) ≤ intMax) :
    names.foldlM step k = asInt (k + (ns.map weight).sum) := by
  obtain ⟨hnumerals, -⟩ := h
  induction names generalizing k ns with
  | nil =>
      obtain rfl := List.map_eq_nil_iff.mp hnumerals.symm
      exact (asInt_of_le hk).symm
  | cons name names ih =>
      rw [List.foldlM_cons]
      cases hdigit : startsWithDigit name with
      | false =>
          rw [List.filter_cons_of_neg (by simp [hdigit])] at hnumerals
          rw [hskip k name hdigit]
          exact ih hstep k hk hnumerals
      | true =>
          rw [List.filter_cons_of_pos hdigit] at hnumerals
          obtain ⟨n, ns', rfl, rfl, hrest⟩ := List.map_eq_cons_iff.mp hnumerals.symm
          have hstep' := fun k hk m hm => hstep k hk m (List.mem_cons_of_mem n hm)
          rw [hstep k hk n List.mem_cons_self, List.map_cons, List.sum_cons, ← Nat.add_assoc]
          exact asInt_bind_of_le (fun k hk => ih hstep' k hk hrest.symm) _

/-- The entries that do not begin with a digit are passed over. -/
theorem addDescriptor_skip (os : System) (pid : Int) (k : Nat) (name : StdString)
    (h : startsWithDigit name = false) : addDescriptor os pid k name = some k := by
  simp [addDescriptor, h]

theorem addProcess_skip (os : System) (k : Nat) (name : StdString)
    (h : startsWithDigit name = false) : addProcess os k name = some k := by
  simp [addProcess, h]

theorem startsWithDigit_numeral (n : Nat) : startsWithDigit (toStdString n) = true := by
  have hdigits : toStdString n = Nat.toDigits 10 n := by
    have hn : ¬ (n : Int) < 0 := by omega
    simp [toStdString, hn]
  rw [hdigits, startsWithDigit]
  cases h : Nat.toDigits 10 n with
  | nil => exact absurd h Nat.toDigits_ne_nil
  | cons c cs => exact isDigit_of_mem_toDigits (h ▸ List.mem_cons_self)

theorem sum_toNat (p : Nat → Bool) (ns : List Nat) :
    (ns.map fun n => (p n).toNat).sum = ns.countP p := by
  induction ns with
  | nil => rfl
  | cons n ns ih =>
      rw [List.map_cons, List.sum_cons, ih]
      cases h : p n <;> simp [h, Nat.add_comm]

variable {os : System} {proc : ProcFs}

/-- The inner loop. -/
theorem foldlM_addDescriptor {names : List StdString} {fds : List Nat} {pid : Nat}
    (hfds : Lists names fds)
    (hlstat : ∀ fd ∈ fds, os.lstat (fdPath pid fd) = some (proc.type pid fd))
    (k : Nat) (hk : (k : Int) ≤ intMax) :
    names.foldlM (addDescriptor os pid) k =
      asInt (k + fds.countP fun fd => proc.type pid fd = .socket) := by
  rw [← sum_toNat]
  refine foldlM_numerals hfds _ (addDescriptor_skip os pid) (fun k hk fd hfd => ?_) k hk
  rw [addDescriptor, if_pos (startsWithDigit_numeral fd), atoi_numeral (hfds.small fd hfd),
    Option.bind_some, hlstat fd hfd]
  by_cases hsocket : proc.type pid fd = .socket
  · simp [hsocket]
  · simp [hsocket, asInt_of_le hk]

/-- The pairs of a process and a descriptor that are sockets to `lstat`,
whatever else is listed, as long as an `int` holds their number; no process
whose descriptors cannot be listed counts. -/
theorem getOpenSocketCount_eq (h : Shows os proc) :
    getOpenSocketCount os = asInt (proc.processes.map proc.sockets).sum := by
  obtain ⟨names, hopen, hlists⟩ := h.processes
  rw [getOpenSocketCount, hopen]
  refine (foldlM_numerals hlists proc.sockets (addProcess_skip os) (fun k hk pid hpid => ?_) 0
    (by decide)).trans ?_
  · rw [addProcess, if_pos (startsWithDigit_numeral pid), atoi_numeral (hlists.small pid hpid),
      Option.bind_some]
    cases hfds : proc.descriptors pid with
    | none => simp [h.unreadable pid hpid hfds, ProcFs.sockets, hfds, asInt_of_le hk]
    | some fds =>
        obtain ⟨names', hopen', hlists'⟩ := h.readable pid hpid fds hfds
        rw [hopen', ProcFs.sockets, hfds]
        exact foldlM_addDescriptor hlists' (h.lstat pid hpid fds hfds) k hk
  · rw [Nat.zero_add]

/-- A system with two processes, of which one hides its descriptors and the
other holds a file and a socket. -/
def twoProcesses : System where
  opendir path :=
    if path = ['/', 'p', 'r', 'o', 'c'] then some [['s', 'e', 'l', 'f'], ['1'], ['7', '7']]
    else if path = procPath 77 then some [['.'], ['.', '.'], ['0'], ['3']]
    else none
  lstat path := some (if path = fdPath 77 3 then .socket else .other)

def twoProcessesFs : ProcFs where
  processes := [1, 77]
  descriptors pid := if pid = 77 then some [0, 3] else none
  type _ fd := if fd = 3 then .socket else .other

theorem getOpenSocketCount_eq_twoProcesses :
    getOpenSocketCount twoProcesses = asInt (twoProcessesFs.processes.map twoProcessesFs.sockets).sum ∧
      (twoProcessesFs.processes.map twoProcessesFs.sockets).sum = 1 := by
  refine ⟨@getOpenSocketCount_eq twoProcesses twoProcessesFs ⟨?_, ?_, ?_, ?_⟩, by decide⟩
  · exact ⟨_, rfl, by decide, by decide⟩
  · decide
  · intro pid hpid fds hfds
    obtain rfl | rfl : pid = 1 ∨ pid = 77 := by simpa [twoProcessesFs] using hpid
    · cases hfds
    · obtain rfl := Option.some.inj hfds
      exact ⟨_, rfl, by decide, by decide⟩
  · intro pid hpid fds hfds
    obtain rfl | rfl : pid = 1 ∨ pid = 77 := by simpa [twoProcessesFs] using hpid
    · cases hfds
    · obtain rfl := Option.some.inj hfds
      decide

/-- Where the entries are links, as they are in `/proc`, no socket is
counted. -/
theorem getOpenSocketCount_links (h : Shows os proc)
    (hlinks : ∀ pid fd, proc.type pid fd = .symbolicLink) : getOpenSocketCount os = some 0 := by
  rw [getOpenSocketCount_eq h]
  have hzero : proc.sockets = fun _ => 0 := by
    funext pid
    simp [ProcFs.sockets, hlinks]
  have hsum : (proc.processes.map proc.sockets).sum = 0 := by simp [hzero]
  rw [hsum]
  exact asInt_of_le (by decide)

/-! ## Open files -/

theorem foldlM_ite (p : StdString → Prop) [DecidablePred p] (names : List StdString) (k : Nat)
    (hk : (k : Int) ≤ intMax) :
    names.foldlM (fun k name => if p name then asInt (k + 1) else some k) k =
      asInt (k + names.countP fun name => p name) := by
  induction names generalizing k with
  | nil => exact (asInt_of_le hk).symm
  | cons name names ih =>
      rw [List.foldlM_cons, List.countP_cons]
      by_cases h : p name
      · rw [if_pos h, if_pos (decide_eq_true h), Nat.add_comm (names.countP _), ← Nat.add_assoc]
        exact asInt_bind_of_le ih (k + 1)
      · rw [if_neg h, if_neg (by simpa using h), Nat.add_zero]
        exact ih k hk

/-- What is listed beside `.` and `..`, in whatever order. One of these is the
descriptor of the listing itself. -/
theorem getOpenFileHandleCount_eq {names : List StdString} {fds : List Nat}
    (hopen : os.opendir ['/', 'p', 'r', 'o', 'c', '/', 's', 'e', 'l', 'f', '/', 'f', 'd'] =
      some names)
    (hnames : names.Perm (['.'] :: ['.', '.'] :: fds.map fun fd : Nat => toStdString fd)) :
    getOpenFileHandleCount os = (asInt fds.length).map Int.ofNat := by
  have hnumeral : ∀ fd : Nat, toStdString fd ≠ ['.'] ∧ toStdString fd ≠ ['.', '.'] := by
    intro fd
    have hdigit := startsWithDigit_numeral fd
    constructor <;> intro heq <;> rw [heq] at hdigit <;> cases hdigit
  have hcount : names.countP (fun name => decide (name ≠ ['.'] ∧ name ≠ ['.', '.'])) = fds.length := by
    rw [hnames.countP_eq]
    simp only [List.countP_cons, List.countP_map]
    rw [List.countP_eq_length.mpr fun fd _ => by simp [hnumeral fd]]
    simp
  rw [getOpenFileHandleCount, hopen]
  dsimp only
  rw [foldlM_ite (fun name => name ≠ ['.'] ∧ name ≠ ['.', '.']) names 0 (by decide), Nat.zero_add,
    hcount]

end PacketDistribution.Node.Linux
