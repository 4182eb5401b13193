/-
PacketDistribution.Server.AcceptorTheorems — whether the server goes on
accepting.

The books of `connections_` are right in every run (`books_of_reachable`).
The armed accept is not: the completion handler re-arms it after
`setup_new_connection`, and an exception of that call leaves the handler
first.

* `accepting_iff_noSetupThrows`: the server keeps one accept armed as long as
  no set-up throws, and loses it with the first one that does.
* `outstanding_of_reachable`: from then on no accept is ever armed again.
-/
import PacketDistribution.Server.Acceptor

namespace PacketDistribution.Server

open PacketDistribution.Lib
open TcpServer

variable {s t : TcpServer} {a : Action}

/-! ## The property -/

/-- `connections_` has one entry for each socket whose set-up returned and
whose session was not removed, and no other; only closed sessions were
removed. -/
structure Books (s : TcpServer) : Prop where
  count : ∀ n, s.sockets.count n = if n ∈ s.setUp ∧ n ∉ s.removed then 1 else 0
  failed : ∀ n ∈ s.failed, n ∉ s.sockets
  removed : ∀ n ∈ s.removed, n ∈ s.closed

/-- Exactly one accept is outstanding, and the books are right. -/
structure Accepting (s : TcpServer) : Prop where
  armed : s.outstanding = 1
  books : Books s

/-- The step does not bring a socket whose set-up throws. -/
def NoSetupThrows (_ : TcpServer) (a : Action) : Prop :=
  ∀ throws, a = .complete (.socket throws) → ∀ call, throws call = false

/-! ## `setup_new_connection` -/

/-- A set-up without an exception adds the session, with both handlers. -/
theorem setupNewConnection_ok {throws : SetupCall → Bool} (h : ∀ call, throws call = false)
    (socket : Nat) (connections : List DispatcherSession) :
    setupNewConnection throws socket connections =
      .ok (connections ++ [⟨socket, [.encryptionHandlerServer, .processEcho]⟩]) := by
  simp only [setupNewConnection, attempt, h]
  rfl

/-- Any call that throws ends it, with nothing added. -/
theorem setupNewConnection_error {throws : SetupCall → Bool} {call : SetupCall}
    (h : throws call = true) (socket : Nat) (connections : List DispatcherSession) :
    ∃ call', setupNewConnection throws socket connections = .error call' := by
  cases hmake : throws .makeSession with
  | true => exact ⟨.makeSession, by simp [setupNewConnection, attempt, hmake, bind, Except.bind]⟩
  | false =>
  cases hexchange : throws .registerEncryptionHandler with
  | true =>
      exact ⟨.registerEncryptionHandler, by
        simp [setupNewConnection, attempt, hmake, hexchange, bind, Except.bind]⟩
  | false =>
  cases hecho : throws .registerProcessEcho with
  | true =>
      exact ⟨.registerProcessEcho, by
        simp [setupNewConnection, attempt, hmake, hexchange, hecho, bind, Except.bind]⟩
  | false =>
      -- the one call that is left
      have hgrow : throws .emplaceBack = true := by
        cases call with
        | makeSession => rw [hmake] at h; cases h
        | registerEncryptionHandler => rw [hexchange] at h; cases h
        | registerProcessEcho => rw [hecho] at h; cases h
        | emplaceBack => exact h
      exact ⟨.emplaceBack, by
        simp [setupNewConnection, attempt, hmake, hexchange, hecho, hgrow, bind, Except.bind]⟩

/-! ## One step -/

/-- The five things a step can be. -/
inductive Stepped (s : TcpServer) : Action → TcpServer → Prop where
  | errorCode : s.outstanding ≠ 0 → Stepped s (.complete .error) s
  | setUp {throws : SetupCall → Bool} : s.outstanding ≠ 0 → (∀ call, throws call = false) →
      Stepped s (.complete (.socket throws))
        { s with
          connections := s.connections ++ [⟨s.nextSocket, [.encryptionHandlerServer, .processEcho]⟩]
          nextSocket := s.nextSocket + 1
          setUp := s.setUp ++ [s.nextSocket] }
  | failed {throws : SetupCall → Bool} {call : SetupCall} : s.outstanding ≠ 0 →
      throws call = true →
      Stepped s (.complete (.socket throws))
        { s with
          outstanding := s.outstanding - 1
          nextSocket := s.nextSocket + 1
          failed := s.failed ++ [s.nextSocket] }
  | closed {socket : Nat} : socket ∈ s.sockets →
      Stepped s (.close socket) { s with closed := s.closed ++ [socket] }
  | cleanup : Stepped s .cleanup s.cleanup

theorem stepped_of_step (h : s.step a = some t) : Stepped s a t := by
  cases a with
  | complete c =>
      simp only [TcpServer.step] at h
      split at h
      · cases h
      · rename_i hne
        obtain rfl := Option.some.inj h
        -- the second `do_accept()` makes up for the completion
        have hrearm : s.outstanding - 1 + 1 = s.outstanding := by omega
        cases c with
        | error =>
            simp only [onAccept, doAccept, hrearm]
            exact .errorCode hne
        | socket throws =>
            by_cases hall : ∀ call, throws call = false
            · simp only [onAccept, setupNewConnection_ok hall, doAccept, hrearm]
              exact .setUp hne hall
            · obtain ⟨call, hcall⟩ := not_forall.mp hall
              have hthrows : throws call = true := by simpa using hcall
              obtain ⟨call', he⟩ := setupNewConnection_error hthrows s.nextSocket s.connections
              simp only [onAccept, he]
              exact .failed hne hthrows
  | close socket =>
      simp only [TcpServer.step] at h
      split at h
      · rename_i hmem
        obtain rfl := Option.some.inj h
        exact .closed hmem
      · cases h
  | cleanup =>
      obtain rfl := Option.some.inj h
      exact .cleanup

/-! ## The books -/

/-- The books, and that the sockets in them are older than the next one. -/
structure BooksInv (s : TcpServer) : Prop extends Books s where
  setUp_lt : ∀ n ∈ s.setUp, n < s.nextSocket
  failed_lt : ∀ n ∈ s.failed, n < s.nextSocket
  removed_lt : ∀ n ∈ s.removed, n < s.nextSocket

/-- The sockets after a clean-up pass: those whose session has not closed. -/
theorem sockets_cleanup (s : TcpServer) :
    s.cleanup.sockets = s.sockets.filter fun n => !s.closed.contains n := by
  simp only [sockets, cleanup, List.filter_map]
  rfl

/-- The sockets a clean-up pass removes. -/
theorem removed_cleanup (s : TcpServer) :
    s.cleanup.removed = s.removed ++ s.sockets.filter s.closed.contains := by
  simp only [sockets, cleanup, List.filter_map]
  rfl

/-- An entry is there once, for a socket that was set up and not removed. -/
theorem BooksInv.mem_sockets (h : BooksInv s) {n : Nat} :
    n ∈ s.sockets ↔ n ∈ s.setUp ∧ n ∉ s.removed := by
  rw [← List.count_pos_iff, h.count]
  split <;> simp_all

/-- A book that gets the next socket has only sockets older than the one
after it. -/
theorem lt_succ_of_mem_append {book : List Nat} {next : Nat} (h : ∀ n ∈ book, n < next) :
    ∀ n ∈ book ++ [next], n < next + 1 := by
  intro n hn
  rcases List.mem_append.mp hn with hmem | hmem
  · exact Nat.lt_succ_of_lt (h n hmem)
  · rw [List.mem_singleton.mp hmem]
    exact Nat.lt_succ_self next

/-- A new socket is in no book. -/
theorem BooksInv.setUp (h : BooksInv s) :
    BooksInv { s with
      connections := s.connections ++ [⟨s.nextSocket, [.encryptionHandlerServer, .processEcho]⟩]
      nextSocket := s.nextSocket + 1
      setUp := s.setUp ++ [s.nextSocket] } where
  count n := by
    have hold := h.count n
    simp only [sockets, List.map_append, List.count_append] at hold ⊢
    by_cases hn : n = s.nextSocket
    · subst hn
      have hnot : s.nextSocket ∉ s.setUp := fun hmem => absurd (h.setUp_lt _ hmem) (by omega)
      have hnot' : s.nextSocket ∉ s.removed := fun hmem => absurd (h.removed_lt _ hmem) (by omega)
      rw [if_neg fun hmem => hnot hmem.1] at hold
      simpa [hnot'] using hold
    · have hne : ¬ s.nextSocket = n := fun heq => hn heq.symm
      simpa [hn, hne] using hold
  failed n hn := by
    have hlt := h.failed_lt n hn
    have hnot := h.failed n hn
    simp only [sockets, List.map_append, List.mem_append] at hnot ⊢
    rintro (hmem | hmem)
    · exact hnot hmem
    · simp only [List.map_cons, List.map_nil, List.mem_singleton] at hmem
      omega
  removed := h.removed
  setUp_lt := lt_succ_of_mem_append h.setUp_lt
  failed_lt n hn := Nat.lt_succ_of_lt (h.failed_lt n hn)
  removed_lt n hn := Nat.lt_succ_of_lt (h.removed_lt n hn)

/-- A socket whose set-up threw has not been in `connections_`. -/
theorem BooksInv.setUpFailed (h : BooksInv s) (k : Nat) :
    BooksInv { s with
      outstanding := k
      nextSocket := s.nextSocket + 1
      failed := s.failed ++ [s.nextSocket] } where
  count := h.count
  failed n hn := by
    rcases List.mem_append.mp hn with hmem | hmem
    · exact h.failed n hmem
    · rw [List.mem_singleton.mp hmem]
      intro hsocket
      exact absurd (h.setUp_lt _ (h.mem_sockets.mp hsocket).1) (by omega)
  removed := h.removed
  setUp_lt n hn := Nat.lt_succ_of_lt (h.setUp_lt n hn)
  failed_lt := lt_succ_of_mem_append h.failed_lt
  removed_lt n hn := Nat.lt_succ_of_lt (h.removed_lt n hn)

/-- A clean-up pass takes out of `connections_` what it puts into the book of
removed sockets. -/
theorem BooksInv.cleanup (h : BooksInv s) : BooksInv s.cleanup where
  count n := by
    rw [sockets_cleanup, removed_cleanup]
    show _ = if n ∈ s.setUp ∧ n ∉ s.removed ++ s.sockets.filter s.closed.contains then 1 else 0
    by_cases hclosed : n ∈ s.closed
    · -- a closed session: out of the vector, and in the book of removed ones
      have hgone : n ∉ s.sockets.filter fun n => !s.closed.contains n := by
        simp [hclosed]
      rw [List.count_eq_zero_of_not_mem hgone, if_neg]
      rintro ⟨hsetUp, hkept⟩
      simp only [List.mem_append, not_or] at hkept
      have hmem := h.mem_sockets.mpr ⟨hsetUp, hkept.1⟩
      exact hkept.2 (List.mem_filter.mpr ⟨hmem, List.contains_iff_mem.mpr hclosed⟩)
    · have hkept : n ∉ s.sockets.filter s.closed.contains := by
        simp [hclosed]
      rw [List.count_filter (by simp [hclosed]), h.count n]
      simp only [List.mem_append, hkept, or_false]
  failed n hn := by
    rw [sockets_cleanup]
    exact fun hmem => h.failed n hn ((List.mem_filter.mp hmem).1)
  removed n hn := by
    rw [removed_cleanup] at hn
    rcases List.mem_append.mp hn with hmem | hmem
    · exact h.removed n hmem
    · exact List.contains_iff_mem.mp (List.mem_filter.mp hmem).2
  setUp_lt := h.setUp_lt
  failed_lt := h.failed_lt
  removed_lt n hn := by
    rw [removed_cleanup] at hn
    rcases List.mem_append.mp hn with hmem | hmem
    · exact h.removed_lt n hmem
    · exact h.setUp_lt n (h.mem_sockets.mp ((List.mem_filter.mp hmem).1)).1

/-- A session that closes changes no book. -/
theorem BooksInv.close (h : BooksInv s) (socket : Nat) :
    BooksInv { s with closed := s.closed ++ [socket] } where
  count := h.count
  failed := h.failed
  removed n hn := List.mem_append_left _ (h.removed n hn)
  setUp_lt := h.setUp_lt
  failed_lt := h.failed_lt
  removed_lt := h.removed_lt

/-- The books are right in every run, whatever throws. -/
theorem booksInv_of_reachable (h : acceptor.Reachable s) : BooksInv s := by
  refine h.invariant ?_ ?_
  · rintro s rfl
    refine ⟨⟨fun n => rfl, ?_, ?_⟩, ?_, ?_, ?_⟩ <;> exact fun n hn => by cases hn
  · intro s a t hs _ hstep
    cases stepped_of_step hstep with
    | errorCode _ => exact hs
    | setUp _ _ => exact hs.setUp
    | failed _ _ => exact hs.setUpFailed _
    | closed _ => exact hs.close _
    | cleanup => exact hs.cleanup

/-! ## The armed accept -/

/-- One accept is outstanding until a set-up throws, and none from then on. -/
theorem outstanding_of_reachable (h : acceptor.Reachable s) :
    s.outstanding = if s.failed = [] then 1 else 0 := by
  induction h with
  | start h0 =>
      rw [h0]
      rfl
  | @next s t a _ _ hstep ih =>
      cases stepped_of_step hstep with
      | errorCode _ => exact ih
      | setUp _ _ => exact ih
      | failed hne _ =>
          show s.outstanding - 1 = if s.failed ++ [s.nextSocket] = [] then 1 else 0
          split at ih
          · simp [ih]
          · exact absurd ih hne
      | closed _ => exact ih
      | cleanup => exact ih

theorem accepting_iff (h : acceptor.Reachable s) : Accepting s ↔ s.failed = [] := by
  have hbooks := (booksInv_of_reachable h).toBooks
  have hcount := outstanding_of_reachable h
  constructor
  · intro haccepting
    by_contra hne
    rw [if_neg hne, haccepting.armed] at hcount
    cases hcount
  · intro hnone
    rw [if_pos hnone] at hcount
    exact ⟨hcount, hbooks⟩

/-- A step adds a failed socket exactly when its set-up throws. -/
theorem failed_of_stepped (h : Stepped s a t) :
    t.failed = s.failed ∧ NoSetupThrows s a ∨
      t.failed = s.failed ++ [s.nextSocket] ∧ ¬ NoSetupThrows s a := by
  cases h with
  | errorCode _ => exact .inl ⟨rfl, fun _ ha => by cases ha⟩
  | setUp _ hall => exact .inl ⟨rfl, fun _ ha => by cases ha; exact hall⟩
  | failed _ hthrows =>
      refine .inr ⟨rfl, fun hok => ?_⟩
      rw [hok _ rfl] at hthrows
      cases hthrows
  | closed _ => exact .inl ⟨rfl, fun _ ha => by cases ha⟩
  | cleanup => exact .inl ⟨rfl, fun _ ha => by cases ha⟩

/-- As long as no set-up throws one accept is outstanding and the books are
right, and the first set-up that throws leaves none. -/
theorem accepting_iff_noSetupThrows (h : acceptor.Reach NoSetupThrows s) :
    Accepting s ∧ ∀ a t, s.step a = some t → (Accepting t ↔ NoSetupThrows s a) := by
  have hreachable : acceptor.Reachable s := h.mono fun _ _ _ => trivial
  have hnone : s.failed = [] := by
    induction h with
    | start h0 => rw [h0]; rfl
    | next hr hok hstep ih =>
        rcases failed_of_stepped (stepped_of_step hstep) with ⟨heq, -⟩ | ⟨-, hbad⟩
        · exact heq.trans (ih (hr.mono fun _ _ _ => trivial))
        · exact absurd hok hbad
  refine ⟨(accepting_iff hreachable).mpr hnone, fun a t hstep => ?_⟩
  rw [accepting_iff (hreachable.next trivial hstep)]
  rcases failed_of_stepped (stepped_of_step hstep) with ⟨heq, hok⟩ | ⟨heq, hbad⟩
  · simp [heq, hnone, hok]
  · simp [heq, hbad]

/-- A session whose vector cannot grow takes the armed accept with it. -/
theorem accept_lost :
    ∃ s, acceptor.Reachable s ∧ s.outstanding = 0 ∧ s.failed = [0] ∧ ¬ Accepting s := by
  have hstart : acceptor.Reachable constructed := .start rfl
  have hreach := hstart.run (show acceptor.run constructed
    [.complete (.socket (· == .emplaceBack))] = some _ from rfl)
  refine ⟨_, hreach, rfl, rfl, fun h => ?_⟩
  cases h.armed

/-- An error code, two sockets of which the first closes, and a clean-up
pass. -/
theorem accepting_afterCleanup :
    ∃ s, acceptor.Reach NoSetupThrows s ∧ s.setUp = [0, 1] ∧ s.sockets = [1] ∧ Accepting s ∧
      ∀ a t, s.step a = some t → (Accepting t ↔ NoSetupThrows s a) := by
  let actions : List Action := [.complete .error, .complete (.socket fun _ => false),
    .complete (.socket fun _ => false), .close 0, .cleanup]
  have hmeets : acceptor.Meets NoSetupThrows constructed actions := by
    refine Machine.Meets.of_forall (fun s a ha throws heq => ?_) _
    subst heq
    simp only [actions, List.mem_cons, Action.complete.injEq, Completion.socket.injEq, reduceCtorEq,
      false_or, or_false, List.not_mem_nil, or_self] at ha
    rw [ha]
    exact fun _ => rfl
  have hreach := Machine.Reach.run (.start rfl) hmeets
    (show acceptor.run constructed actions = some _ from rfl)
  exact ⟨_, hreach, rfl, rfl, accepting_iff_noSetupThrows hreach⟩

end PacketDistribution.Server
