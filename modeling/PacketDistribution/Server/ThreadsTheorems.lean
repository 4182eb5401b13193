/-
PacketDistribution.Server.ThreadsTheorems — what the threads of the server
may do at the same time.

One accept and one resumption of `cleanup_task` are in flight until an
exception leaves their handler, as an operation that waits or as the thread
that runs it; the handler puts its successor in place with its last statement.
So a completion handler excludes the next one and a pass of the clean-up the
next one (`one_of_each`), but neither excludes the other.

* `race_iff`: `connections_` is used by two threads at once in some run as
  soon as there are two threads, and then by one `emplace_back` and one
  `erase_if`.
* `atomic_reachable`: as long as one call on `connections_` at a time takes
  effect, every run is a run of the machine in which handlers are one step,
  and `Process.point` is the statement at which each of them happens.
* `runs_until_uncaught`: the process ends with the first exception that nothing
  catches, and with nothing else.
-/
import PacketDistribution.Server.Threads
import PacketDistribution.Server.AcceptorTheorems

namespace PacketDistribution.Server

open PacketDistribution.Lib
open TcpServer

/-! ## One thread of a list -/

section Threads

variable {α : Type} {p : α → Bool} {l : List α} {a b : α} {i j : Nat}

/-- Exchanging one element exchanges what it counts for. -/
theorem countP_set_add (p : α → Bool) (h : l[i]? = some a) (b : α) :
    (l.set i b).countP p + (p a).toNat = l.countP p + (p b).toNat := by
  induction l generalizing i with
  | nil => cases h
  | cons c l ih =>
      cases i with
      | zero =>
          obtain rfl := Option.some.inj h
          cases hc : p c <;> cases hb : p b <;> simp [hc, hb]
      | succ i =>
          have hcount := ih h
          simp only [List.set_cons_succ, List.countP_cons]
          omega

theorem countP_pos_of_getElem? (h : l[i]? = some a) (ha : p a = true) : 0 < l.countP p :=
  List.countP_pos_iff.mpr ⟨a, List.mem_of_getElem? h, ha⟩

/-- Where no more than one element counts, two that do are one. -/
theorem index_unique (hone : l.countP p ≤ 1) (hi : l[i]? = some a) (hj : l[j]? = some b)
    (ha : p a = true) (hb : p b = true) : i = j := by
  induction l generalizing i j with
  | nil => cases hi
  | cons c l ih =>
      cases i with
      | zero =>
          obtain rfl := Option.some.inj hi
          cases j with
          | zero => rfl
          | succ j =>
              have hpos : 0 < l.countP p := countP_pos_of_getElem? hj hb
              rw [List.countP_cons_of_pos ha] at hone
              omega
      | succ i =>
          have hpos : 0 < l.countP p := countP_pos_of_getElem? hi ha
          cases j with
          | zero =>
              obtain rfl := Option.some.inj hj
              rw [List.countP_cons_of_pos hb] at hone
              omega
          | succ j =>
              rw [List.countP_cons] at hone
              rw [ih (by omega) hi hj]

end Threads

variable {n i : Nat} {t u : Thread} {p q : Process}

/-! ## Exceptions -/

/-- A step is one of a process that has not ended. -/
theorem step_eq_some {a : Process.Action} :
    p.step a = some q ↔ p.terminated = false ∧ p.stepRunning a = some q := by
  simp [Process.step]

/-- What throws is a call of a set-up, the clean-up or a session's handler. -/
theorem throw_cases (h : p.throw i t = some q) :
    (∃ call socket, t.setup = some (call, socket) ∧
      q = { p.unwind i t with
        server := { p.server with failed := p.server.failed ++ [socket] } }) ∨
    (t.cleaning = true ∧ q = { p.unwind i t with cleanupOver := true }) ∨
    (t = .sessionHandler ∧ q = p.unwind i t) := by
  cases t with
  | makeSession | registerEncryptionHandler | registerProcessEcho | emplaceBack =>
      exact .inl ⟨_, _, rfl, (Option.some.inj h).symm⟩
  | eraseIf | asyncWait => exact .inr (.inl ⟨rfl, (Option.some.inj h).symm⟩)
  | sessionHandler => exact .inr (.inr ⟨rfl, (Option.some.inj h).symm⟩)
  | run | doAccept | unwound | returned => cases h

/-- What an exception that nothing catches leaves behind. -/
theorem throw_uncaught (h : p.throw i t = some q) :
    q.uncaught = some t ∧ (q.server.failed = p.server.failed ∧ t.setup = none ∨
      ∃ call socket, t.setup = some (call, socket) ∧
        q.server.failed = p.server.failed ++ [socket]) := by
  obtain ⟨call, socket, hsetup, rfl⟩ | ⟨hcleaning, rfl⟩ | ⟨rfl, rfl⟩ := throw_cases h
  · exact ⟨rfl, .inr ⟨call, socket, hsetup, rfl⟩⟩
  · refine ⟨rfl, .inl ⟨rfl, ?_⟩⟩
    cases t <;> first | rfl | cases hcleaning
  · exact ⟨rfl, .inl ⟨rfl, rfl⟩⟩

/-- No other step ends the process or loses a socket. -/
theorem step_quiet {a : Process.Action} (ha : ∀ i, a ≠ .throw i) (hstep : p.step a = some q) :
    q.uncaught = p.uncaught ∧ q.server.failed = p.server.failed := by
  obtain ⟨-, hstep⟩ := step_eq_some.mp hstep
  cases a with
  | pickUp i handler =>
      simp only [Process.stepRunning, Option.ite_none_right_eq_some] at hstep
      obtain ⟨-, hstep⟩ := hstep
      cases handler with
      | acceptError | acceptSocket | cleanup =>
          simp only [Process.pickUp, Option.ite_none_left_eq_some] at hstep
          obtain rfl := Option.some.inj hstep.2
          exact ⟨rfl, rfl⟩
      | session =>
          obtain rfl := Option.some.inj hstep
          exact ⟨rfl, rfl⟩
  | execute i =>
      obtain ⟨t, -, hstep⟩ := Option.bind_eq_some_iff.mp hstep
      cases t with
      | run | unwound | returned => cases hstep
      | _ =>
          obtain rfl := Option.some.inj hstep
          exact ⟨rfl, rfl⟩
  | throw i => exact absurd rfl (ha i)
  | discard i =>
      obtain ⟨t, -, hstep⟩ := Option.bind_eq_some_iff.mp hstep
      simp only [Process.discard, Option.ite_none_right_eq_some] at hstep
      obtain rfl := Option.some.inj hstep.2
      exact ⟨rfl, rfl⟩
  | leaveRun i =>
      simp only [Process.stepRunning, Option.ite_none_right_eq_some] at hstep
      obtain rfl := Option.some.inj hstep.2
      exact ⟨rfl, rfl⟩
  | close socket =>
      simp only [Process.stepRunning, Option.ite_none_right_eq_some] at hstep
      obtain rfl := Option.some.inj hstep.2
      exact ⟨rfl, rfl⟩

/-! ## The operations in flight -/

/-- The local data of a thread, where `next` is the number of the next
socket. No thread has returned from `run()`. -/
def Thread.Holds (next : Nat) : Thread → Prop
  | .makeSession socket => socket + 1 = next
  | .registerEncryptionHandler session => session.socket + 1 = next ∧ session.handlers = []
  | .registerProcessEcho session =>
      session.socket + 1 = next ∧ session.handlers = [.encryptionHandlerServer]
  | .emplaceBack session =>
      session.socket + 1 = next ∧ session.handlers = [.encryptionHandlerServer, .processEcho]
  | .returned => False
  | _ => True

/-- Outside the completion handler the data name no socket. -/
theorem Thread.Holds.of_not_accepting {next next' : Nat} (h : t.Holds next)
    (ht : t.accepting = false) : t.Holds next' := by
  cases t <;> first | exact h | cases ht

/-- The accepts there should be: one, until a set-up throws. -/
def Process.live (p : Process) : Nat := if p.server.failed = [] then 1 else 0

theorem Process.live_le (p : Process) : p.live ≤ 1 := by
  unfold Process.live
  split <;> omega

/-- The resumptions there should be: one, until the coroutine is over. -/
def Process.resuming (p : Process) : Nat := if p.cleanupOver then 0 else 1

theorem Process.resuming_le (p : Process) : p.resuming ≤ 1 := by
  unfold Process.resuming
  split <;> omega

/-- What every reachable state keeps. -/
structure InFlight (n : Nat) (p : Process) : Prop where
  threads : p.threads.length = n
  accept : p.server.outstanding + p.threads.countP Thread.accepting = p.live
  cleanup : p.resumptions + p.threads.countP Thread.cleaning = p.resuming
  holds : ∀ (i : Nat) (t : Thread), p.threads[i]? = some t → t.Holds p.server.nextSocket

theorem inFlight_started (n : Nat) : InFlight n (Process.started n) where
  threads := List.length_replicate
  accept := by
    simp [Process.started, constructed, TcpServer.doAccept, List.countP_replicate,
      Thread.accepting, Process.live]
  cleanup := by simp [Process.started, List.countP_replicate, Thread.cleaning, Process.resuming]
  holds i t h := by
    obtain rfl := List.eq_of_mem_replicate (List.mem_of_getElem? h)
    trivial

/-- A thread goes on from `t` at `u`. What it no longer counts for is counted
elsewhere, and the number of the next socket changes only where no thread
holds one. -/
theorem InFlight.moved (h : InFlight n p) (hi : p.threads[i]? = some t)
    (hput : q.threads = p.threads.set i u)
    (haccept : q.server.outstanding + u.accepting.toNat + p.live =
      p.server.outstanding + t.accepting.toNat + q.live)
    (hcleanup : q.resumptions + u.cleaning.toNat + p.resuming =
      p.resumptions + t.cleaning.toNat + q.resuming)
    (hnext : q.server.nextSocket = p.server.nextSocket ∨
      p.threads.countP Thread.accepting = 0)
    (hu : u.Holds q.server.nextSocket) : InFlight n q := by
  have hcount := countP_set_add Thread.accepting hi u
  have hcleaning := countP_set_add Thread.cleaning hi u
  have hp := h.accept
  have hp' := h.cleanup
  refine ⟨?_, ?_, ?_, fun j v hj => ?_⟩
  · rw [hput, List.length_set, h.threads]
  · rw [hput]; omega
  · rw [hput]; omega
  · rw [hput, List.getElem?_set] at hj
    split at hj
    · split at hj
      · exact Option.some.inj hj ▸ hu
      · cases hj
    · have hv := h.holds j v hj
      obtain heq | hnone := hnext
      · exact heq ▸ hv
      · refine hv.of_not_accepting ?_
        simpa using List.countP_eq_zero.mp hnone v (List.mem_of_getElem? hj)

theorem InFlight.pickUp (h : InFlight n p) {handler : Process.Handler}
    (hi : p.threads[i]? = some .run) (hstep : p.pickUp i handler = some q) : InFlight n q := by
  have hcount := h.accept
  cases handler with
  | acceptError =>
      simp only [Process.pickUp, Option.ite_none_left_eq_some] at hstep
      obtain ⟨hne, hstep⟩ := hstep
      obtain rfl := Option.some.inj hstep
      refine h.moved hi rfl ?_ rfl (.inl rfl) trivial
      show p.server.outstanding - 1 + 1 + p.live = p.server.outstanding + 0 + p.live
      omega
  | acceptSocket =>
      simp only [Process.pickUp, Option.ite_none_left_eq_some] at hstep
      obtain ⟨hne, hstep⟩ := hstep
      obtain rfl := Option.some.inj hstep
      have hlive := p.live_le
      have hnone : p.threads.countP Thread.accepting = 0 := by omega
      refine h.moved hi rfl ?_ rfl (.inr hnone) rfl
      show p.server.outstanding - 1 + 1 + p.live = p.server.outstanding + 0 + p.live
      omega
  | cleanup =>
      simp only [Process.pickUp, Option.ite_none_left_eq_some] at hstep
      obtain ⟨hne, hstep⟩ := hstep
      obtain rfl := Option.some.inj hstep
      refine h.moved hi rfl rfl ?_ (.inl rfl) trivial
      show p.resumptions - 1 + 1 + p.resuming = p.resumptions + 0 + p.resuming
      omega
  | session =>
      obtain rfl := Option.some.inj hstep
      exact h.moved hi rfl rfl rfl (.inl rfl) trivial

theorem InFlight.execute (h : InFlight n p) (hi : p.threads[i]? = some t)
    (hstep : p.execute i t = some q) : InFlight n q := by
  have ht := h.holds i t hi
  cases t with
  | makeSession socket =>
      obtain rfl := Option.some.inj hstep
      exact h.moved hi rfl rfl rfl (.inl rfl) ⟨ht, rfl⟩
  | registerEncryptionHandler session =>
      obtain rfl := Option.some.inj hstep
      refine h.moved hi rfl rfl rfl (.inl rfl) ⟨ht.1, ?_⟩
      simp [DispatcherSession.registerDefaultHandler, ht.2]
  | registerProcessEcho session =>
      obtain rfl := Option.some.inj hstep
      refine h.moved hi rfl rfl rfl (.inl rfl) ⟨ht.1, ?_⟩
      simp [DispatcherSession.registerDefaultHandler, ht.2]
  | emplaceBack session =>
      obtain rfl := Option.some.inj hstep
      exact h.moved hi rfl rfl rfl (.inl rfl) trivial
  | doAccept =>
      obtain rfl := Option.some.inj hstep
      exact h.moved hi rfl rfl rfl (.inl rfl) trivial
  | eraseIf =>
      obtain rfl := Option.some.inj hstep
      exact h.moved hi rfl rfl rfl (.inl rfl) trivial
  | asyncWait =>
      obtain rfl := Option.some.inj hstep
      exact h.moved hi rfl rfl rfl (.inl rfl) trivial
  | sessionHandler =>
      obtain rfl := Option.some.inj hstep
      exact h.moved hi rfl rfl rfl (.inl rfl) trivial
  | run | unwound | returned => cases hstep

/-- A thread at a fallible call is in the completion handler. -/
theorem Thread.accepting_of_setup {call : SetupCall} {socket : Nat}
    (h : t.setup = some (call, socket)) : t.accepting = true ∧ t.cleaning = false := by
  cases t <;> first | exact ⟨rfl, rfl⟩ | cases h

/-- One in the clean-up is not in the completion handler. -/
theorem Thread.not_accepting_of_cleaning (h : t.cleaning = true) : t.accepting = false := by
  cases t <;> first | rfl | cases h

/-- A thread that leaves the clean-up by an exception takes its resumption
along. -/
theorem InFlight.cleanupLeft (h : InFlight n p) (hi : p.threads[i]? = some t)
    (hcleaning : t.cleaning = true) (hput : q.threads = p.threads.set i u)
    (hover : q.cleanupOver = true) (hresumptions : q.resumptions = p.resumptions)
    (hserver : q.server = p.server) (hu : u.accepting = false ∧ u.cleaning = false)
    (hholds : u.Holds q.server.nextSocket) : InFlight n q := by
  have hpos : 0 < p.threads.countP Thread.cleaning := countP_pos_of_getElem? hi hcleaning
  have hcleanup := h.cleanup
  have hresuming := p.resuming_le
  have hzero : q.resuming = 0 := if_pos hover
  have hlive : q.live = p.live := by rw [Process.live, hserver, Process.live]
  refine h.moved hi hput ?_ ?_ (.inl (by rw [hserver])) hholds
  · rw [hserver, hlive, hu.1, Thread.not_accepting_of_cleaning hcleaning]
  · rw [hresumptions, hzero, hu.2, hcleaning, Bool.toNat_true, Bool.toNat_false]
    omega

theorem InFlight.throw (h : InFlight n p) (hi : p.threads[i]? = some t)
    (hstep : p.throw i t = some q) : InFlight n q := by
  obtain ⟨call, socket, hsetup, rfl⟩ | ⟨hcleaning, rfl⟩ | ⟨rfl, rfl⟩ := throw_cases hstep
  · obtain ⟨haccepting, hcleaning⟩ := Thread.accepting_of_setup hsetup
    have hpos : 0 < p.threads.countP Thread.accepting := countP_pos_of_getElem? hi haccepting
    have haccept := h.accept
    have hlive := p.live_le
    refine h.moved hi rfl ?_ ?_ (.inl rfl) trivial
    · -- the accept goes with the thread
      have hzero : Process.live { p.unwind i t with
          server := { p.server with failed := p.server.failed ++ [socket] } } = 0 :=
        if_neg (List.append_ne_nil_of_right_ne_nil _ (List.cons_ne_nil _ _))
      rw [hzero, haccepting]
      show p.server.outstanding + 0 + p.live = p.server.outstanding + 1 + 0
      omega
    · rw [hcleaning]
      rfl
  · exact h.cleanupLeft hi hcleaning rfl rfl rfl rfl ⟨rfl, rfl⟩ trivial
  · exact h.moved hi rfl rfl rfl (.inl rfl) trivial

theorem InFlight.discard (h : InFlight n p) (hi : p.threads[i]? = some t)
    (hstep : p.discard i t = some q) : InFlight n q := by
  simp only [Process.discard, Option.ite_none_right_eq_some] at hstep
  obtain ⟨hcleaning, hstep⟩ := hstep
  obtain rfl := Option.some.inj hstep
  exact h.cleanupLeft hi hcleaning rfl rfl rfl rfl ⟨rfl, rfl⟩ trivial

/-- Until a set-up throws there is an accept that waits or a thread that runs
its handler. -/
theorem InFlight.not_outOfWork (h : InFlight n p) (hfailed : p.server.failed = []) :
    p.outOfWork = false := by
  by_contra hout
  simp only [Process.outOfWork, Bool.not_eq_false, Bool.and_eq_true, beq_iff_eq] at hout
  obtain ⟨⟨houtstanding, -⟩, hidle⟩ := hout
  have haccept := h.accept
  rw [Process.live, if_pos hfailed] at haccept
  have hnone : p.threads.countP Thread.accepting = 0 := by
    refine List.countP_eq_zero.mpr fun t ht => ?_
    have hrun := List.all_eq_true.mp hidle t ht
    cases t <;> first | exact Bool.false_ne_true | cases hrun
  omega

/-- A socket is lost by a set-up that ended the process. -/
def Process.LostBySetup (p : Process) : Prop :=
  p.server.failed ≠ [] ↔ ∃ t, p.uncaught = some t ∧ t.setup.isSome

theorem lostBySetup_started (n : Nat) : (Process.started n).LostBySetup := by
  simp [Process.LostBySetup, Process.started, constructed, TcpServer.doAccept]

theorem Process.LostBySetup.running (h : p.LostBySetup) (hlive : p.terminated = false) :
    p.server.failed = [] := by
  by_contra hne
  obtain ⟨t, ht, -⟩ := h.mp hne
  rw [Process.terminated, ht] at hlive
  cases hlive

theorem Process.LostBySetup.step (h : p.LostBySetup) {a : Process.Action}
    (hstep : p.step a = some q) : q.LostBySetup := by
  by_cases ha : ∀ i, a ≠ .throw i
  · obtain ⟨huncaught, hfailed⟩ := step_quiet ha hstep
    rwa [Process.LostBySetup, huncaught, hfailed]
  · obtain ⟨i, hi⟩ := not_forall.mp ha
    obtain rfl := not_not.mp hi
    obtain ⟨hlive, hstep⟩ := step_eq_some.mp hstep
    obtain ⟨t, -, hstep⟩ := Option.bind_eq_some_iff.mp hstep
    have hnone := h.running hlive
    obtain ⟨huncaught, ⟨hfailed, hsetup⟩ | ⟨call, socket, hsetup, hfailed⟩⟩ := throw_uncaught hstep
    · simp [Process.LostBySetup, huncaught, hfailed, hnone, hsetup]
    · simp [Process.LostBySetup, huncaught, hfailed, hsetup]

theorem InFlight.step (h : InFlight n p) (hlost : p.LostBySetup) {a : Process.Action}
    (hstep : p.step a = some q) : InFlight n q := by
  obtain ⟨hlive, hstep⟩ := step_eq_some.mp hstep
  cases a with
  | pickUp i handler =>
      simp only [Process.stepRunning, Option.ite_none_right_eq_some] at hstep
      exact h.pickUp hstep.1 hstep.2
  | execute i =>
      obtain ⟨t, hi, hstep⟩ := Option.bind_eq_some_iff.mp hstep
      exact h.execute hi hstep
  | throw i =>
      obtain ⟨t, hi, hstep⟩ := Option.bind_eq_some_iff.mp hstep
      exact h.throw hi hstep
  | discard i =>
      obtain ⟨t, hi, hstep⟩ := Option.bind_eq_some_iff.mp hstep
      exact h.discard hi hstep
  | leaveRun i =>
      simp only [Process.stepRunning, h.not_outOfWork (hlost.running hlive)] at hstep
      simp at hstep
  | close socket =>
      simp only [Process.stepRunning, Option.ite_none_right_eq_some] at hstep
      obtain rfl := Option.some.inj hstep.2
      exact ⟨h.threads, h.accept, h.cleanup, h.holds⟩

theorem invariants_of_reachable (h : (process n).Reachable p) : InFlight n p ∧ p.LostBySetup := by
  induction h with
  | start h0 =>
      rw [h0]
      exact ⟨inFlight_started n, lostBySetup_started n⟩
  | next _ _ hstep ih => exact ⟨ih.1.step ih.2 hstep, ih.2.step hstep⟩

theorem inFlight_of_reachable (h : (process n).Reachable p) : InFlight n p :=
  (invariants_of_reachable h).1

/-- One accept and one resumption are in flight, each as an operation that
waits or as the one thread in its handler: the accept until a set-up throws
and with that ends the process, the resumption until an exception has left the
coroutine. -/
theorem one_of_each (h : (process n).Reachable p) :
    p.threads.length = n ∧
      p.server.outstanding + p.threads.countP Thread.accepting =
        (if p.server.failed = [] then 1 else 0) ∧
      (p.server.failed ≠ [] ↔ ∃ t, p.uncaught = some t ∧ t.setup.isSome) ∧
      p.resumptions + p.threads.countP Thread.cleaning = (if p.cleanupOver then 0 else 1) :=
  have ⟨hp, hlost⟩ := invariants_of_reachable h
  ⟨hp.threads, hp.accept, hlost, hp.cleanup⟩

/-- With all threads of `main`: one in a set-up, one in a pass, one with a
session, and the rest in `run()`. -/
theorem one_of_each_main :
    ∃ p, (process (kAdditionalThreads + 1)).Reachable p ∧
      p.threads = [.sessionHandler, .eraseIf, .run, .makeSession 0, .run, .run, .run, .run] ∧
      p.threads.length = kAdditionalThreads + 1 ∧
      p.server.outstanding + p.threads.countP Thread.accepting =
        (if p.server.failed = [] then 1 else 0) ∧
      (p.server.failed ≠ [] ↔ ∃ t, p.uncaught = some t ∧ t.setup.isSome) ∧
      p.resumptions + p.threads.countP Thread.cleaning = (if p.cleanupOver then 0 else 1) := by
  have hstart : (process (kAdditionalThreads + 1)).Reachable (.started 8) := .start rfl
  have hreach := hstart.run (show (process (kAdditionalThreads + 1)).run (.started 8)
    [.pickUp 3 .acceptSocket, .pickUp 1 .cleanup, .pickUp 0 .session] = some _ from rfl)
  exact ⟨_, hreach, rfl, one_of_each hreach⟩

/-! ## Two threads at `connections_` -/

/-- A thread about to use `connections_` is in the completion handler, at its
`emplace_back`, or in the clean-up, at its `erase_if`. -/
theorem Thread.accesses_cases (h : t.accessesConnections = true) :
    (∃ session, t = .emplaceBack session) ∨ t = .eraseIf := by
  cases t <;> first | exact .inl ⟨_, rfl⟩ | exact .inr rfl | cases h

theorem InFlight.emplaceBack_unique (h : InFlight n p) {j : Nat} {session session'}
    (hi : p.threads[i]? = some (.emplaceBack session))
    (hj : p.threads[j]? = some (.emplaceBack session')) : i = j := by
  refine index_unique ?_ hi hj (rfl : Thread.accepting _ = true) rfl
  have haccept := h.accept
  have hlive := p.live_le
  omega

theorem InFlight.eraseIf_unique (h : InFlight n p) {j : Nat}
    (hi : p.threads[i]? = some .eraseIf) (hj : p.threads[j]? = some .eraseIf) : i = j := by
  refine index_unique ?_ hi hj (rfl : Thread.cleaning _ = true) rfl
  have hcleanup := h.cleanup
  have hresuming := p.resuming_le
  omega

/-- A race is between one `emplace_back` and one `erase_if`. -/
theorem InFlight.race_pair (h : InFlight n p) (hrace : p.Race) :
    ∃ i j session, p.threads[i]? = some (.emplaceBack session) ∧
      p.threads[j]? = some .eraseIf ∧ ∀ k, p.Accesses k → k = i ∨ k = j := by
  obtain ⟨i, j, hne, ⟨t, hi, ht⟩, ⟨u, hj, hu⟩⟩ := hrace
  -- whichever of the two is at `emplace_back`, the other is not
  have hothers : ∀ {i j : Nat} {session : DispatcherSession},
      p.threads[i]? = some (.emplaceBack session) → p.threads[j]? = some .eraseIf →
        ∀ k, p.Accesses k → k = i ∨ k = j := by
    rintro i j session hi hj k ⟨v, hk, hv⟩
    obtain ⟨session', rfl⟩ | rfl := Thread.accesses_cases hv
    · exact .inl (h.emplaceBack_unique hk hi)
    · exact .inr (h.eraseIf_unique hk hj)
  obtain ⟨session, rfl⟩ | rfl := Thread.accesses_cases ht
  · obtain ⟨session', rfl⟩ | rfl := Thread.accesses_cases hu
    · exact absurd (h.emplaceBack_unique hi hj) hne
    · exact ⟨i, j, session, hi, hj, hothers hi hj⟩
  · obtain ⟨session, rfl⟩ | rfl := Thread.accesses_cases hu
    · exact ⟨j, i, session, hj, hi, hothers hj hi⟩
    · exact absurd (h.eraseIf_unique hi hj) hne

/-- With two threads, one can stand at its `emplace_back` while the other has
begun a pass. -/
theorem race_of_two (n : Nat) : ∃ p, (process (n + 2)).Reachable p ∧ p.Race := by
  have hstart : (process (n + 2)).Reachable (.started (n + 2)) := .start rfl
  have hreach := hstart.run (show (process (n + 2)).run (.started (n + 2))
    [.pickUp 0 .acceptSocket, .execute 0, .execute 0, .execute 0, .pickUp 1 .cleanup] =
      some _ from rfl)
  exact ⟨_, hreach, 0, 1, Nat.zero_ne_one, ⟨_, rfl, rfl⟩, ⟨_, rfl, rfl⟩⟩

/-- In some run two threads use `connections_` at once exactly if there are
two threads, and it is always one `emplace_back` and one `erase_if`. -/
theorem race_iff (n : Nat) :
    ((∃ p, (process n).Reachable p ∧ p.Race) ↔ 2 ≤ n) ∧
      ∀ p, (process n).Reachable p → p.Race →
        ∃ i j session, p.threads[i]? = some (.emplaceBack session) ∧
          p.threads[j]? = some .eraseIf ∧ ∀ k, p.Accesses k → k = i ∨ k = j := by
  refine ⟨⟨?_, fun hn => ?_⟩, fun p h hrace => (inFlight_of_reachable h).race_pair hrace⟩
  · rintro ⟨p, h, i, j, hne, ⟨t, hi, -⟩, ⟨u, hj, -⟩⟩
    have hlen := (inFlight_of_reachable h).threads
    have hi := (List.getElem?_eq_some_iff.mp hi).1
    have hj := (List.getElem?_eq_some_iff.mp hj).1
    omega
  · obtain ⟨m, rfl⟩ := Nat.exists_eq_add_of_le' hn
    exact race_of_two m

/-- The server runs `kAdditionalThreads + 1` threads: there is such a run. -/
theorem race_iff_main :
    (∃ p, (process (kAdditionalThreads + 1)).Reachable p ∧ p.Race) ∧
      ∀ p, (process (kAdditionalThreads + 1)).Reachable p → p.Race →
        ∃ i j session, p.threads[i]? = some (.emplaceBack session) ∧
          p.threads[j]? = some .eraseIf ∧ ∀ k, p.Accesses k → k = i ∨ k = j :=
  ⟨(race_iff (kAdditionalThreads + 1)).1.mpr (by decide), (race_iff (kAdditionalThreads + 1)).2⟩

/-! ## Handlers as one step -/

/-- The thread stands at a call of `setup_new_connection`. -/
def Thread.settingUp (t : Thread) : Bool := t.setup.isSome

/-- The server of a process, as it is where a completion handler is one step:
the accept whose handler runs is outstanding, and the socket that is being
set up has not come yet. -/
def Process.atomic (p : Process) : TcpServer :=
  { p.server with
    outstanding := p.server.outstanding + p.threads.countP Thread.accepting
    nextSocket := p.server.nextSocket - p.threads.countP Thread.settingUp }

/-- Where the two totals come out the same, only the rest of the server can
have changed. -/
theorem Process.atomic_of_totals {a b : Nat}
    (hout : q.server.outstanding + q.threads.countP Thread.accepting = a)
    (hnext : q.server.nextSocket - q.threads.countP Thread.settingUp = b) :
    q.atomic = { q.server with outstanding := a, nextSocket := b } := by
  rw [Process.atomic, hout, hnext]

/-- A thread that goes on without a change of what is counted does nothing
there. -/
theorem Process.atomic_put (hi : p.threads[i]? = some t)
    (haccepting : t.accepting = u.accepting) (hsetting : t.settingUp = u.settingUp) :
    (p.put i u).atomic = p.atomic := by
  have hcount := countP_set_add Thread.accepting hi u
  have hsetup := countP_set_add Thread.settingUp hi u
  rw [haccepting] at hcount
  rw [hsetting] at hsetup
  simp only [Process.atomic, Process.put]
  rw [Nat.add_right_cancel hcount, Nat.add_right_cancel hsetup]

/-- Picking up a handler is no step there. -/
theorem Process.atomic_pickUp {handler : Process.Handler} (hi : p.threads[i]? = some .run)
    (hstep : p.pickUp i handler = some q) : q.atomic = p.atomic := by
  cases handler with
  | acceptError =>
      simp only [Process.pickUp, Option.ite_none_left_eq_some] at hstep
      obtain ⟨hne, hstep⟩ := hstep
      obtain rfl := Option.some.inj hstep
      have hcount : (p.threads.set i .doAccept).countP Thread.accepting + 0 =
          p.threads.countP Thread.accepting + 1 := countP_set_add Thread.accepting hi .doAccept
      have hsetup : (p.threads.set i .doAccept).countP Thread.settingUp + 0 =
          p.threads.countP Thread.settingUp + 0 := countP_set_add Thread.settingUp hi .doAccept
      refine Process.atomic_of_totals ?_ ?_
      · simp only [Process.put]; omega
      · simp only [Process.put]; omega
  | acceptSocket =>
      simp only [Process.pickUp, Option.ite_none_left_eq_some] at hstep
      obtain ⟨hne, hstep⟩ := hstep
      obtain rfl := Option.some.inj hstep
      have hcount : (p.threads.set i (.makeSession p.server.nextSocket)).countP Thread.accepting + 0 =
          p.threads.countP Thread.accepting + 1 := countP_set_add Thread.accepting hi _
      have hsetup : (p.threads.set i (.makeSession p.server.nextSocket)).countP Thread.settingUp + 0 =
          p.threads.countP Thread.settingUp + 1 := countP_set_add Thread.settingUp hi _
      refine Process.atomic_of_totals ?_ ?_
      · simp only [Process.put]; omega
      · simp only [Process.put]; omega
  | cleanup =>
      simp only [Process.pickUp, Option.ite_none_left_eq_some] at hstep
      obtain ⟨hne, hstep⟩ := hstep
      obtain rfl := Option.some.inj hstep
      exact Process.atomic_put hi rfl rfl
  | session =>
      obtain rfl := Option.some.inj hstep
      exact Process.atomic_put hi rfl rfl

/-- The thread that sets up the last socket is the only one that does. -/
theorem InFlight.settingUp (h : InFlight n p) (hi : p.threads[i]? = some t)
    (ht : t.settingUp = true) : p.threads.countP Thread.settingUp = 1 := by
  have hpos : 0 < p.threads.countP Thread.settingUp := countP_pos_of_getElem? hi ht
  have hle : p.threads.countP Thread.settingUp ≤ p.threads.countP Thread.accepting := by
    refine List.countP_mono_left fun v _ hv => ?_
    cases v <;> first | rfl | cases hv
  have haccept := h.accept
  have hlive := p.live_le
  omega

/-- A completion with an error changes nothing, as one step. -/
theorem step_acceptError {s : TcpServer} (h : s.outstanding ≠ 0) :
    s.step (.complete .error) = some s := by
  have hrearm : s.outstanding - 1 + 1 = s.outstanding := by omega
  simp only [TcpServer.step, if_neg h, onAccept, TcpServer.doAccept, hrearm]

/-- A completion whose set-up returns, as one step. -/
theorem step_setUp {s : TcpServer} (h : s.outstanding ≠ 0) :
    s.step (.complete (.socket fun _ => false)) = some { s with
      connections := s.connections ++ [⟨s.nextSocket, [.encryptionHandlerServer, .processEcho]⟩]
      nextSocket := s.nextSocket + 1
      setUp := s.setUp ++ [s.nextSocket] } := by
  have hrearm : s.outstanding - 1 + 1 = s.outstanding := by omega
  simp only [TcpServer.step, if_neg h, onAccept, setupNewConnection_ok fun _ => rfl,
    TcpServer.doAccept, hrearm]

/-- A completion whose set-up throws, as one step. -/
theorem step_setupThrows {s : TcpServer} (h : s.outstanding ≠ 0) (call : SetupCall) :
    s.step (.complete (.socket (· == call))) = some { s with
      outstanding := s.outstanding - 1
      nextSocket := s.nextSocket + 1
      failed := s.failed ++ [s.nextSocket] } := by
  have hthrows : (call == call) = true := by simp
  obtain ⟨call', he⟩ :=
    @setupNewConnection_error (· == call) call hthrows s.nextSocket s.connections
  simp only [TcpServer.step, if_neg h, onAccept, he]

/-- `emplace_back` is where the completion handler takes effect. -/
theorem InFlight.atomic_emplaceBack (h : InFlight n p) {session : DispatcherSession}
    (hi : p.threads[i]? = some (.emplaceBack session))
    (hstep : p.execute i (.emplaceBack session) = some q) :
    p.atomic.step (.complete (.socket fun _ => false)) = some q.atomic := by
  obtain ⟨hsocket, hhandlers⟩ := h.holds i _ hi
  have hone := h.settingUp hi rfl
  have hpos : 0 < p.threads.countP Thread.accepting := countP_pos_of_getElem? hi rfl
  have hcount : (p.threads.set i .doAccept).countP Thread.accepting + 1 =
      p.threads.countP Thread.accepting + 1 := countP_set_add Thread.accepting hi .doAccept
  have hsetup : (p.threads.set i .doAccept).countP Thread.settingUp + 1 =
      p.threads.countP Thread.settingUp + 0 := countP_set_add Thread.settingUp hi .doAccept
  -- the number the atomic server is about to give the socket is its own
  have hnumber : p.atomic.nextSocket = session.socket := by
    simp only [Process.atomic]
    omega
  have hne : p.atomic.outstanding ≠ 0 := by
    simp only [Process.atomic]
    omega
  have hsession : session = ⟨session.socket, [.encryptionHandlerServer, .processEcho]⟩ := by
    rw [← hhandlers]
  obtain rfl := Option.some.inj hstep
  rw [step_setUp hne, hnumber, ← hsession]
  refine congrArg some (Eq.symm (Process.atomic_of_totals ?_ ?_))
  · simp only [Process.put, Process.atomic]; omega
  · simp only [Process.put]; omega

/-- The throw is where a completion handler that fails takes effect. -/
theorem InFlight.atomic_setupThrows (h : InFlight n p) {call : SetupCall} {socket : Nat}
    (hi : p.threads[i]? = some t) (hsetup : t.setup = some (call, socket)) :
    p.atomic.step (.complete (.socket (· == call))) = some (Process.atomic { p.unwind i t with
      server := { p.server with failed := p.server.failed ++ [socket] } }) := by
  have hsettingUp : t.settingUp = true := by simp [Thread.settingUp, hsetup]
  have haccepting := (Thread.accepting_of_setup hsetup).1
  have hone := h.settingUp hi hsettingUp
  have hpos : 0 < p.threads.countP Thread.accepting := countP_pos_of_getElem? hi haccepting
  have hcount := countP_set_add Thread.accepting hi .unwound
  have hset := countP_set_add Thread.settingUp hi .unwound
  rw [haccepting] at hcount
  rw [hsettingUp] at hset
  have hsocket : socket + 1 = p.server.nextSocket := by
    have hholds := h.holds i t hi
    cases t <;> simp only [Thread.setup, Option.some.injEq, Prod.mk.injEq, reduceCtorEq] at hsetup
    · exact hsetup.2 ▸ hholds
    · exact hsetup.2 ▸ hholds.1
    · exact hsetup.2 ▸ hholds.1
    · exact hsetup.2 ▸ hholds.1
  have hnumber : p.atomic.nextSocket = socket := by
    simp only [Process.atomic]
    omega
  have hne : p.atomic.outstanding ≠ 0 := by
    simp only [Process.atomic]
    omega
  rw [step_setupThrows hne, hnumber]
  change _ + 1 = _ + 0 at hcount hset
  refine congrArg some (Eq.symm (Process.atomic_of_totals ?_ ?_))
  · simp only [Process.unwind, Process.put, Process.atomic]; omega
  · simp only [Process.unwind, Process.put]; omega

/-- One in the clean-up is not in a set-up either. -/
theorem Thread.setup_of_cleaning (h : t.cleaning = true) : t.setup = none := by
  cases t <;> first | rfl | cases h

theorem Thread.settingUp_of_cleaning (h : t.cleaning = true) : t.settingUp = false := by
  rw [Thread.settingUp, Thread.setup_of_cleaning h, Option.isSome_none]

/-- The step that an action of the process comes to where handlers are one
step. A completion with an error takes effect where it is picked up, a set-up
at its `emplace_back` or at the call that throws, a pass at its `erase_if`. -/
def Process.point (p : Process) : Process.Action → Option Server.Action
  | .pickUp _ .acceptError => some (.complete .error)
  | .execute i =>
      match p.threads[i]? with
      | some (.emplaceBack _) => some (.complete (.socket fun _ => false))
      | some .eraseIf => some .cleanup
      | _ => none
  | .throw i => (p.threads[i]?.bind Thread.setup).map fun (call, _) =>
      .complete (.socket (· == call))
  | .close socket => some (.close socket)
  | _ => none

/-- From `p` to `q` an atomic server does the given step, or none. -/
def Process.Takes (p q : Process) (b : Option Server.Action) : Prop :=
  b.elim (q.atomic = p.atomic) fun b => acceptor.step p.atomic b = some q.atomic

theorem InFlight.takes_throw (h : InFlight n p) (hi : p.threads[i]? = some t)
    (hstep : p.throw i t = some q) : p.Takes q (p.point (.throw i)) := by
  simp only [Process.point, hi, Option.bind_some]
  obtain ⟨call, socket, hsetup, rfl⟩ | ⟨hcleaning, rfl⟩ | ⟨rfl, rfl⟩ := throw_cases hstep
  · rw [hsetup]
    exact h.atomic_setupThrows hi hsetup
  · rw [Thread.setup_of_cleaning hcleaning]
    exact Process.atomic_put hi (Thread.not_accepting_of_cleaning hcleaning)
      (Thread.settingUp_of_cleaning hcleaning)
  · exact Process.atomic_put hi rfl rfl

/-- Every statement is the step at its point, or none at all. -/
theorem InFlight.takes_execute (h : InFlight n p) (hi : p.threads[i]? = some t)
    (hstep : p.execute i t = some q) : p.Takes q (p.point (.execute i)) := by
  simp only [Process.point, hi]
  cases t with
  | makeSession socket =>
      obtain rfl := Option.some.inj hstep
      exact Process.atomic_put hi rfl rfl
  | registerEncryptionHandler session =>
      obtain rfl := Option.some.inj hstep
      exact Process.atomic_put hi rfl rfl
  | registerProcessEcho session =>
      obtain rfl := Option.some.inj hstep
      exact Process.atomic_put hi rfl rfl
  | emplaceBack session => exact h.atomic_emplaceBack hi hstep
  | doAccept =>
      obtain rfl := Option.some.inj hstep
      have hcount : (p.threads.set i .run).countP Thread.accepting + 1 =
          p.threads.countP Thread.accepting + 0 := countP_set_add Thread.accepting hi .run
      have hsetup : (p.threads.set i .run).countP Thread.settingUp + 0 =
          p.threads.countP Thread.settingUp + 0 := countP_set_add Thread.settingUp hi .run
      refine Process.atomic_of_totals ?_ ?_
      · simp only [Process.put, TcpServer.doAccept]; omega
      · simp only [Process.put, TcpServer.doAccept]; omega
  | eraseIf =>
      obtain rfl := Option.some.inj hstep
      have hput : (p.put i .asyncWait).atomic = p.atomic := Process.atomic_put hi rfl rfl
      show some p.atomic.cleanup = some (Process.atomic _)
      rw [← hput]
      rfl
  | asyncWait =>
      obtain rfl := Option.some.inj hstep
      exact Process.atomic_put hi rfl rfl
  | sessionHandler =>
      obtain rfl := Option.some.inj hstep
      exact Process.atomic_put hi rfl rfl
  | run | unwound | returned => cases hstep

/-- So is picking up a handler. -/
theorem takes_pickUp {handler : Process.Handler} (hi : p.threads[i]? = some .run)
    (hstep : p.pickUp i handler = some q) : p.Takes q (p.point (.pickUp i handler)) := by
  have hatomic := Process.atomic_pickUp hi hstep
  cases handler with
  | acceptError =>
      simp only [Process.pickUp, Option.ite_none_left_eq_some] at hstep
      have hne : p.atomic.outstanding ≠ 0 := by
        simp only [Process.atomic]
        omega
      exact (step_acceptError hne).trans (congrArg some hatomic.symm)
  | acceptSocket | cleanup | session => exact hatomic

/-- One step of the process. -/
theorem takes_of_reachable (h : (process n).Reachable p) {a : Process.Action}
    (hstep : (process n).step p a = some q) : p.Takes q (p.point a) := by
  obtain ⟨hp, hlost⟩ := invariants_of_reachable h
  obtain ⟨hlive, hstep⟩ := step_eq_some.mp hstep
  cases a with
  | pickUp i handler =>
      simp only [Process.stepRunning, Option.ite_none_right_eq_some] at hstep
      exact takes_pickUp hstep.1 hstep.2
  | execute i =>
      obtain ⟨t, hi, hstep⟩ := Option.bind_eq_some_iff.mp hstep
      exact hp.takes_execute hi hstep
  | throw i =>
      obtain ⟨t, hi, hstep⟩ := Option.bind_eq_some_iff.mp hstep
      exact hp.takes_throw hi hstep
  | discard i =>
      obtain ⟨t, hi, hstep⟩ := Option.bind_eq_some_iff.mp hstep
      simp only [Process.discard, Option.ite_none_right_eq_some] at hstep
      obtain ⟨hcleaning, hstep⟩ := hstep
      obtain rfl := Option.some.inj hstep
      exact Process.atomic_put hi (Thread.not_accepting_of_cleaning hcleaning)
        (Thread.settingUp_of_cleaning hcleaning)
  | leaveRun i =>
      simp only [Process.stepRunning, hp.not_outOfWork (hlost.running hlive)] at hstep
      simp at hstep
  | close socket =>
      simp only [Process.stepRunning, Option.ite_none_right_eq_some] at hstep
      obtain ⟨hmem, hstep⟩ := hstep
      obtain rfl := Option.some.inj hstep
      exact if_pos hmem

theorem atomic_started (n : Nat) : (Process.started n).atomic = constructed := by
  simp [Process.atomic, Process.started, constructed, TcpServer.doAccept, List.countP_replicate,
    Thread.accepting, Thread.settingUp, Thread.setup]

/-- Where each call on `connections_` takes effect at once, the statements of
the handlers in any order on any number of threads come to no more than
whole completions and whole passes in some order: each has one point at which
all of it happens, and no other statement changes anything. -/
theorem atomic_reachable (h : (process n).Reachable p) :
    acceptor.Reachable p.atomic ∧
      ∀ a q, (process n).step p a = some q → p.Takes q (p.point a) := by
  refine ⟨h.simulation ?_ fun p a q hp hstep => ?_, fun a q hstep => takes_of_reachable h hstep⟩
  · rintro p rfl
    exact atomic_started n
  · have htakes := takes_of_reachable hp hstep
    cases hpoint : p.point a with
    | none =>
        rw [hpoint] at htakes
        exact .inl htakes
    | some b =>
        rw [hpoint] at htakes
        exact .inr ⟨b, htakes⟩

/-- A session that is in the vector before its accept is armed again, beside
a pass that has yet to arm its timer. -/
theorem atomic_reachable_main :
    ∃ p, (process (kAdditionalThreads + 1)).Reachable p ∧ p.server.outstanding = 0 ∧
      p.resumptions = 0 ∧ p.atomic.outstanding = 1 ∧ p.atomic.setUp = [0] ∧
      acceptor.Reachable p.atomic ∧
      ∀ a q, (process (kAdditionalThreads + 1)).step p a = some q → p.Takes q (p.point a) := by
  have hstart : (process (kAdditionalThreads + 1)).Reachable (.started 8) := .start rfl
  have hreach := hstart.run (show (process (kAdditionalThreads + 1)).run (.started 8)
    [.pickUp 0 .acceptSocket, .execute 0, .pickUp 1 .cleanup, .execute 0, .execute 0,
      .execute 0, .execute 1] = some _ from rfl)
  exact ⟨_, hreach, rfl, rfl, rfl, rfl, atomic_reachable hreach⟩

/-! ## The end of the process -/

/-- The statements the completion handler has left. -/
def Thread.statementsLeft : Thread → Nat
  | .makeSession _ => 5
  | .registerEncryptionHandler _ => 4
  | .registerProcessEcho _ => 3
  | .emplaceBack _ => 2
  | .doAccept => 1
  | _ => 0

/-- A statement of the completion handler leaves one less, and until the last
one no accept is armed. -/
theorem execute_statementsLeft {k : Nat} (hi : p.threads[i]? = some t)
    (hleft : t.statementsLeft = k + 1) :
    ∃ u q, p.execute i t = some q ∧ q.threads[i]? = some u ∧ u.statementsLeft = k ∧
      q.terminated = p.terminated ∧
      q.server.outstanding = p.server.outstanding + if k = 0 then 1 else 0 := by
  have hlt := (List.getElem?_eq_some_iff.mp hi).1
  have hset : ∀ u : Thread, (p.threads.set i u)[i]? = some u := fun u =>
    List.getElem?_set_self hlt
  cases t with
  | makeSession socket =>
      obtain rfl : 4 = k := Nat.succ.inj hleft
      exact ⟨_, _, rfl, hset _, rfl, rfl, rfl⟩
  | registerEncryptionHandler session =>
      obtain rfl : 3 = k := Nat.succ.inj hleft
      exact ⟨_, _, rfl, hset _, rfl, rfl, rfl⟩
  | registerProcessEcho session =>
      obtain rfl : 2 = k := Nat.succ.inj hleft
      exact ⟨_, _, rfl, hset _, rfl, rfl, rfl⟩
  | emplaceBack session =>
      obtain rfl : 1 = k := Nat.succ.inj hleft
      exact ⟨_, _, rfl, hset _, rfl, rfl, rfl⟩
  | doAccept =>
      obtain rfl : 0 = k := Nat.succ.inj hleft
      exact ⟨_, _, rfl, hset _, rfl, rfl, rfl⟩
  | run | eraseIf | asyncWait | sessionHandler | unwound | returned => cases hleft

theorem step_execute (n : Nat) (hlive : p.terminated = false) (hi : p.threads[i]? = some t)
    (hq : p.execute i t = some q) : (process n).step p (.execute i) = some q := by
  simp [process, Process.step, Process.stepRunning, hlive, hi, hq]

/-- The completion handler comes to its `do_accept()` in as many steps as it
has statements, whatever the other threads hold. -/
theorem run_rearmed (n : Nat) {k : Nat} (hlive : p.terminated = false)
    (hi : p.threads[i]? = some t) (hleft : t.statementsLeft = k + 1) :
    ∃ q, (process n).run p (List.replicate (k + 1) (.execute i)) = some q ∧
      q.server.outstanding = p.server.outstanding + 1 := by
  induction k generalizing p t with
  | zero =>
      obtain ⟨u, q, hq, -, -, -, hout⟩ := execute_statementsLeft hi hleft
      exact ⟨q, by simp [Machine.run, step_execute n hlive hi hq], hout⟩
  | succ k ih =>
      obtain ⟨u, q, hq, hi', hleft', hlive', hout⟩ := execute_statementsLeft hi hleft
      obtain ⟨r, hr, hout'⟩ := ih (hlive'.trans hlive) hi' hleft'
      refine ⟨r, ?_, ?_⟩
      · rw [List.replicate_succ, Machine.run, step_execute n hlive hi hq]
        exact hr
      · rw [hout', hout]; rfl

/-- A thread in the completion handler has a statement left, and at most
five. -/
theorem Thread.statementsLeft_of_accepting (h : t.accepting = true) :
    ∃ k, t.statementsLeft = k + 1 ∧ k + 1 ≤ 5 := by
  cases t with
  | makeSession socket => exact ⟨4, rfl, by decide⟩
  | registerEncryptionHandler session => exact ⟨3, rfl, by decide⟩
  | registerProcessEcho session => exact ⟨2, rfl, by decide⟩
  | emplaceBack session => exact ⟨1, rfl, by decide⟩
  | doAccept => exact ⟨0, rfl, by decide⟩
  | run | eraseIf | asyncWait | sessionHandler | unwound | returned => cases h

/-- A process that has ended takes no step. -/
theorem run_terminated {as : List Process.Action} (hend : p.terminated = true)
    (h : (process n).run p as = some q) : q = p := by
  cases as with
  | nil => exact (Option.some.inj h).symm
  | cons a as => simp [Machine.run, process, Process.step, hend] at h

/-- A process ends by an exception that nothing catches, and only so. -/
theorem terminated_iff_throws {as : List Process.Action} (hlive : p.terminated = false)
    (h : (process n).run p as = some q) :
    q.terminated = true ↔ ∃ i, Process.Action.throw i ∈ as := by
  induction as generalizing p with
  | nil =>
      obtain rfl := Option.some.inj h
      simp [hlive]
  | cons a as ih =>
      obtain ⟨r, hr, hrest⟩ := Option.bind_eq_some_iff.mp h
      by_cases ha : ∀ i, a ≠ .throw i
      · have hlive' : r.terminated = false := by
          rw [Process.terminated, (step_quiet ha hr).1]
          exact hlive
        simp [ih hlive' hrest, fun i => (ha i).symm]
      · obtain ⟨i, hi⟩ := not_forall.mp ha
        obtain rfl := not_not.mp hi
        obtain ⟨t, -, hstep⟩ := Option.bind_eq_some_iff.mp (step_eq_some.mp hr).2
        have hend : r.terminated = true := by
          rw [Process.terminated, (throw_uncaught hstep).1]
          rfl
        rw [run_terminated hend hrest]
        exact iff_of_true hend ⟨i, List.mem_cons_self⟩

/-- The accept is armed, or one thread runs its handler and arms it with no
more than five statements of its own. -/
def Process.Rearms (n : Nat) (p : Process) : Prop :=
  p.server.outstanding = 1 ∧ (∀ t ∈ p.threads, t.accepting = false) ∨
    p.server.outstanding = 0 ∧ ∃ (i : Nat) (k : Nat),
      (∀ (j : Nat) (t : Thread), p.threads[j]? = some t → (t.accepting = true ↔ j = i)) ∧ k ≤ 5 ∧
        ∃ q, (process n).run p (List.replicate k (.execute i)) = some q ∧
          q.server.outstanding = 1

theorem InFlight.rearms (h : InFlight n p) (hlost : p.LostBySetup)
    (hlive : p.terminated = false) : p.Rearms n := by
  have haccept := h.accept
  rw [Process.live, if_pos (hlost.running hlive)] at haccept
  obtain hnone | hpos := Nat.eq_zero_or_pos (p.threads.countP Thread.accepting)
  · refine .inl ⟨by omega, fun t ht => ?_⟩
    exact Bool.eq_false_iff.mpr (List.countP_eq_zero.mp hnone t ht)
  · obtain ⟨t, ht, haccepting⟩ := List.countP_pos_iff.mp hpos
    obtain ⟨i, hi⟩ := List.mem_iff_getElem?.mp ht
    obtain ⟨k, hleft, hk⟩ := Thread.statementsLeft_of_accepting haccepting
    obtain ⟨q, hq, hout⟩ := run_rearmed n hlive hi hleft
    refine .inr ⟨by omega, i, k + 1, fun j u hj => ⟨fun hu => ?_, ?_⟩, hk, q, hq, by omega⟩
    · exact index_unique (by omega) hj hi hu haccepting
    · rintro rfl
      rw [Option.some.inj (hj.symm.trans hi)]
      exact haccepting

/-- No thread returns from `run()`. The process ends with the first exception
that nothing catches, and with nothing else: one of a set-up, which takes its
socket with it, of a session's handler or of the clean-up. Up to then an accept
is armed, or the one thread in the completion handler arms it. -/
theorem runs_until_uncaught {as : List Process.Action}
    (h : (process n).run (.started n) as = some p) :
    (∀ t ∈ p.threads, t ≠ .returned) ∧
      (p.terminated = true ↔ ∃ i, Process.Action.throw i ∈ as) ∧
      (p.server.failed ≠ [] ↔ ∃ t, p.uncaught = some t ∧ t.setup.isSome) ∧
      (p.terminated = false → p.Rearms n) := by
  have hstart : (process n).Reachable (.started n) := .start rfl
  obtain ⟨hp, hlost⟩ := invariants_of_reachable (hstart.run h)
  refine ⟨fun t ht heq => ?_, terminated_iff_throws rfl h, hlost, hp.rearms hlost⟩
  obtain ⟨i, hi⟩ := List.mem_iff_getElem?.mp ht
  exact (heq ▸ hp.holds i t hi : Thread.Holds _ .returned)

/-- A handler of a session that throws, `process_echo` at `stoi` say, ends the
process while another thread sets up a socket. -/
theorem runs_until_uncaught_main :
    ∃ p, (process (kAdditionalThreads + 1)).run (.started (kAdditionalThreads + 1))
        [.pickUp 0 .acceptSocket, .execute 0, .pickUp 1 .session, .throw 1] = some p ∧
      p.uncaught = some .sessionHandler ∧ p.server.failed = [] ∧
      (∀ t ∈ p.threads, t ≠ .returned) ∧
      (p.terminated = true ↔ ∃ i, Process.Action.throw i ∈ [Process.Action.pickUp 0 .acceptSocket,
        .execute 0, .pickUp 1 .session, .throw 1]) ∧
      (p.server.failed ≠ [] ↔ ∃ t, p.uncaught = some t ∧ t.setup.isSome) ∧
      (p.terminated = false → p.Rearms (kAdditionalThreads + 1)) := by
  have hrun : (process (kAdditionalThreads + 1)).run (.started (kAdditionalThreads + 1))
      [.pickUp 0 .acceptSocket, .execute 0, .pickUp 1 .session, .throw 1] = some _ := rfl
  exact ⟨_, hrun, rfl, rfl, runs_until_uncaught hrun⟩

end PacketDistribution.Server
