/-
PacketDistribution.Session.HandshakeTheorems — the handshake leads to the
rally of echoes.

`echoing` starts from a connection that is written down. Here it is shown to
be the rest of the real one: in a run without an early arrival, a connection
whose coroutine has returned and whose server has its cipher is a reachable
state of `echoing`, up to the log, which no step reads (`step_log`).
-/
import PacketDistribution.Session.SyncTheorems

namespace PacketDistribution.Session

open PacketDistribution.Lib
open PacketDistribution.Packets

variable {Byte Secret Seed Digest : Type} {C : Crypto Byte Secret Seed Digest} {dh : Secret}
  {s t : Connection Byte Secret Seed Digest} {act : Action Byte Secret Seed}

/-! ## No step reads the log -/

/-- The same connection with another log. -/
def Connection.withLog (s : Connection Byte Secret Seed Digest) (log : List (Event Byte Digest)) :
    Connection Byte Secret Seed Digest :=
  { s with log := log }

@[simp] theorem note_withLog (s : Connection Byte Secret Seed Digest)
    (log : List (Event Byte Digest)) (ev : Event Byte Digest) :
    (s.withLog log).note ev = (s.note ev).withLog (log ++ [ev]) :=
  rfl

@[simp] theorem sendPacket_withLog (s : Connection Byte Secret Seed Digest)
    (log : List (Event Byte Digest)) (p : Packet Byte) (at_ : End) :
    (s.withLog log).sendPacket p at_ =
      (s.sendPacket p at_).withLog (log ++ [.sent at_ ⟨(s.endpoint at_).cipher, p⟩]) := by
  cases at_ <;> rfl

@[simp] theorem setupEncryption_withLog (s : Connection Byte Secret Seed Digest)
    (log : List (Event Byte Digest)) (e : AES256 Byte Digest) (at_ : End) :
    (s.withLog log).setupEncryption e at_ =
      (s.setupEncryption e at_).withLog (log ++ [.installed at_ e]) := by
  cases at_ <;> rfl

/-- A statement does the same whatever is in the log, if storing the call's
next control point does. -/
theorem perform_log {Pc : Type} {at_ : End}
    {put : Connection Byte Secret Seed Digest → Option Pc → Connection Byte Secret Seed Digest}
    (hput : ∀ s log next, put (s.withLog log) next = (put s next).withLog log)
    {eff : Effect Byte Digest Pc} (h : s.perform at_ put eff = some t)
    (log : List (Event Byte Digest)) :
    ∃ log', (s.withLog log).perform at_ put eff = some (t.withLog log') := by
  cases eff with
  | awaitPacket next =>
      obtain ⟨r, rest, hinbox, rfl⟩ := perform_awaitPacket.mp h
      refine ⟨log, perform_awaitPacket.mpr ⟨r, rest, hinbox, ?_⟩⟩
      exact hput { s with inbox := rest } log _
  | go next =>
      obtain rfl := Option.some.inj h
      exact ⟨log, congrArg some (hput s log _)⟩
  | _ =>
      obtain rfl := Option.some.inj h
      simp only [Connection.perform, note_withLog, sendPacket_withLog, setupEncryption_withLog, hput]
      exact ⟨_, rfl⟩

variable [DecidableEq Byte] [DecidableEq Digest]

theorem deliver_log {at_ : End} {c : ServerChoice Byte Secret Seed} (h : s.deliver at_ c = some t)
    (log : List (Event Byte Digest)) :
    ∃ log', (s.withLog log).deliver at_ c = some (t.withLog log') := by
  have hend : (s.withLog log).endpoint at_ = s.endpoint at_ := by
    cases at_ <;> rfl
  have hdispatch : ∀ (u : Connection Byte Secret Seed Digest) (log : List (Event Byte Digest))
      (p : Packet Byte), (u.withLog log).dispatch c at_ p = (u.dispatch c at_ p).withLog log := by
    intro u log p
    cases at_ <;> cases p <;> rfl
  unfold Connection.deliver at h ⊢
  rw [hend]
  split at h
  · cases h
  · rename_i m rest hin
    have hnote : ((s.withLog log).dropIncoming at_).note (.arrived at_ m (s.endpoint at_).cipher)
        = ((s.dropIncoming at_).note (.arrived at_ m (s.endpoint at_).cipher)).withLog
          (log ++ [.arrived at_ m (s.endpoint at_).cipher]) := by
      cases at_ <;> rfl
    rw [hnote]
    split at h
    · rename_i hmode
      obtain rfl := Option.some.inj h
      rw [if_pos hmode, hdispatch]
      exact ⟨_, rfl⟩
    · rename_i hmode
      obtain rfl := Option.some.inj h
      rw [if_neg hmode]
      exact ⟨_, rfl⟩

/-- A step does the same whatever is in the log. -/
theorem step_log (h : s.step C act = some t) (log : List (Event Byte Digest)) :
    ∃ log', (s.withLog log).step C act = some (t.withLog log') := by
  cases act with
  | coroutine =>
      obtain ⟨pc, hpc, h⟩ := Option.bind_eq_some_iff.mp h
      obtain ⟨log', h'⟩ := perform_log (fun _ _ _ => rfl) h log
      exact ⟨log', Option.bind_eq_some_iff.mpr ⟨pc, hpc, h'⟩⟩
  | handler n =>
      obtain ⟨pc, hpc, h⟩ := Option.bind_eq_some_iff.mp h
      obtain ⟨log', h'⟩ := perform_log (fun _ _ _ => rfl) h log
      exact ⟨log', Option.bind_eq_some_iff.mpr ⟨pc, hpc, h'⟩⟩
  | echo at_ n =>
      obtain ⟨pc, hpc, h⟩ := Option.bind_eq_some_iff.mp h
      obtain ⟨log', h'⟩ := perform_log (fun _ _ _ => by cases at_ <;> rfl) h log
      refine ⟨log', Option.bind_eq_some_iff.mpr ⟨pc, ?_, h'⟩⟩
      cases at_ <;> exact hpc
  | arrive at_ c => exact deliver_log h log

/-! ## The end of the handshake -/

/-- Once the coroutine has returned, either its echo still waits for the
server to install its cipher, or the connection is a state of `echoing`. -/
def Handover (C : Crypto Byte Secret Seed Digest) (s : Connection Byte Secret Seed Digest) : Prop :=
  s.coroutine = none →
    s.server.cipher = none ∧ s.server.incoming ≠ [] ∨
      ∃ log, (echoing C).Reachable (s.withLog log)

/-- The client has sent its first echo. -/
theorem handover_echoSent {e : AES256 Byte Digest}
    {hd : List (ServerPc Byte Secret Seed Digest)} {sc : Option (AES256 Byte Digest)}
    {log : List (Event Byte Digest)} (hsv : ServerAfter C e hd sc) :
    Handover C ⟨none, [], hd, ⟨some e, [], []⟩, ⟨sc, [⟨some e, .echo firstEcho⟩], []⟩, log⟩ := by
  intro _
  cases hsv with
  | pending hsent ho => exact .inl ⟨rfl, List.cons_ne_nil _ _⟩
  | installed => exact .inr ⟨[.sent .client ⟨some e, .echo firstEcho⟩], .start ⟨e, rfl⟩⟩

/-- A step before the coroutine has returned. -/
theorem Handover.of_running (hp : Phase C dh s) (hrun : s.coroutine ≠ none)
    (h : s.step C act = some t) : Handover C t := by
  by_cases hact : act = .coroutine
  · subst hact
    cases hp with
    | opening =>
        obtain rfl := Option.some.inj h
        exact fun hdone => by cases hdone
    | prepared =>
        obtain rfl := Option.some.inj h
        exact fun hdone => by cases hdone
    | requested hreq => cases h
    | handling hsent hout hreq => cases h
    | refused => cases h
    | echoSent hsv hx => exact absurd rfl hrun
    | echoLost hsv hx => exact absurd rfl hrun
    | @rally e at_ b log hx => cases at_ <;> exact absurd rfl hrun
    | answered he hsv hcl hx =>
        cases hcl with
        | inFlight => cases h
        | waiting =>
            obtain rfl := Option.some.inj h
            exact fun hdone => by cases hdone
        | installed =>
            obtain rfl := Option.some.inj h
            exact handover_echoSent hsv
        | computing hrecv ho =>
            rcases clientStmt_outcome C hrecv with
              ⟨next, hnext | hnext, -, -⟩ | ⟨e', hinstall, -⟩ | ⟨-, hnone⟩
            · simp only [Connection.step, Option.bind_some, Connection.perform, hnext] at h
              obtain rfl := Option.some.inj h
              exact fun hdone => by cases hdone
            · simp only [Connection.step, Option.bind_some, Connection.perform, hnext] at h
              obtain rfl := Option.some.inj h
              exact fun hdone => by cases hdone
            · simp only [Connection.step, Option.bind_some, Connection.perform, hinstall] at h
              obtain rfl := Option.some.inj h
              exact fun hdone => by cases hdone
            · rw [ho] at hnone
              cases hnone
  · intro hdone
    rw [coroutine_frame h hact] at hdone
    exact absurd hdone hrun

/-- A step after the coroutine has returned. -/
theorem Handover.of_returned (hp : Phase C dh s) (hs : Handover C s) (hdone : s.coroutine = none)
    (hok : NoEarlyArrival s act) (h : s.step C act = some t) : Handover C t := by
  rcases hs hdone with ⟨hnone, hin⟩ | ⟨log, hlog⟩
  · cases hp with
    | @echoSent e hd sc log hsv hx =>
        cases act with
        | coroutine => cases h
        | handler n =>
            obtain ⟨hd', sc', evs, hsv', rfl⟩ := hsv.step h
            exact handover_echoSent hsv'
        | echo at_ n => cases at_ <;> simp [Connection.step, Connection.endpoint] at h
        | arrive at_ c =>
            cases at_ with
            | client => cases h
            | server =>
                -- the server has sent its response and not installed its cipher
                cases hsv with
                | installed => cases hnone
                | pending hsent ho =>
                    rw [hok c rfl _ List.mem_cons_self] at hsent
                    cases hsent
    | echoLost hsv hx => exact absurd rfl hin
    | @rally e at_ b log hx => cases at_ <;> cases b <;> cases hnone
    | _ => cases hdone
  · intro _
    obtain ⟨log', h'⟩ := step_log h log
    exact .inr ⟨log', hlog.next trivial h'⟩

theorem handover_of_reach (hC : C.Lawful) (h : (connection C dh).Reach NoEarlyArrival s) :
    Handover C s := by
  induction h with
  | start h0 =>
      intro hdone
      rw [h0] at hdone
      cases hdone
  | @next s t act hr hok hs ih =>
      have hp : Phase C dh s := phase_of_reach hC hr
      by_cases hdone : s.coroutine = none
      · exact ih.of_returned hp hdone hok hs
      · exact .of_running hp hdone hs

/-- In a run without an early arrival, a connection whose coroutine has
returned and whose server has its cipher is a reachable state of `echoing`. -/
theorem echoing_of_connection (hC : C.Lawful) (h : (connection C dh).Reach NoEarlyArrival s)
    (hdone : s.coroutine = none) (hready : s.server.cipher ≠ none) :
    ∃ log, (echoing C).Reachable (s.withLog log) := by
  rcases handover_of_reach hC h hdone with ⟨hnone, -⟩ | hlog
  · exact absurd hnone hready
  · exact hlog

end PacketDistribution.Session
