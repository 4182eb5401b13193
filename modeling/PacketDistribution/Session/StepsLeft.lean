/-
PacketDistribution.Session.StepsLeft — what is left to do in a connection.

`exchangeLeft` counts what is left of the key exchange, statements and
arrivals, and `echoLeft` what is left of the rally of echoes, if no more echoes
are sent than `int` has numerals. Every step takes from one of them and adds
nothing to the other (`step_left`).

Each operation of the step function has a lemma that says what it adds; a
statement is described by `Effect.Lowers`, so the two programs enter through
`serverStmt_lowers` and `clientStmt_lowers` alone.
-/
import Mathlib.Algebra.GroupWithZero.Nat
import PacketDistribution.Session.EchoTheorems

namespace PacketDistribution.Session

open PacketDistribution.Lib
open PacketDistribution.Packets

variable {Byte Secret Seed Digest : Type}

/-! ## What is left to do -/

/-- The steps that a packet on its way will cause at its receiver, its
arrival included, until both calls have returned. -/
def Packet.weight : Packet Byte → Nat
  | .request _ => 12
  | .response _ => 1
  | .echo _ => 0

/-- The steps a handler call will cause. Its response will cause one at the
client. -/
def ServerPc.weight : ServerPc Byte Secret Seed Digest → Nat
  | .getPublicKey _ => 11
  | .fillSalt _ _ => 10
  | .drawRounds _ _ => 9
  | .signHash _ _ => 8
  | .getSharedSecret _ _ => 7
  | .appendSalt _ _ => 6
  | .computeHash _ _ => 5
  | .sendPacket _ _ => 4
  | .makeCipher _ _ => 2
  | .setupEncryption _ => 1

/-- The steps the coroutine will cause up to its echo, which belongs to the
rally. -/
def ClientPc.weight : ClientPc Byte Secret Digest → Nat
  | .getPublicKey _ => 21
  | .sendRequest _ _ => 20
  | .awaitResponse _ => 7
  | .verifyHash _ _ => 6
  | .getSharedSecret _ _ => 5
  | .appendSalt _ _ => 4
  | .computeHash _ _ => 3
  | .makeCipher _ _ => 2
  | .setupEncryption _ => 1
  | .sendEcho => 0

/-- The steps of a `process_echo` call before it sends. -/
def EchoPc.weight : EchoPc → Nat
  | .answer _ => 1
  | .sendPacket _ => 0

/-- The packets in flight. -/
def Connection.inFlight (s : Connection Byte Secret Seed Digest) : List (Packet Byte) :=
  (s.client.incoming ++ s.server.incoming).map Sealed.packet

/-- The steps that are left of the key exchange. -/
def Connection.exchangeLeft (s : Connection Byte Secret Seed Digest) : Nat :=
  s.coroutine.elim 0 ClientPc.weight + (s.handlers.map ServerPc.weight).sum +
    (s.inFlight.map Packet.weight).sum

/-- The numerals of `int` from `0` on. -/
def echoRange : Nat := 2147483648

/-- The steps that are left of the rally: three for each echo that has not been
sent, and those of the echo that is under way. -/
def Connection.echoLeft (s : Connection Byte Secret Seed Digest) : Nat :=
  3 * (echoRange - (sentEchoes s.log).length) + 2 * s.inFlight.countP Packet.isEcho +
    ((s.client.echoes ++ s.server.echoes).map EchoPc.weight).sum

/-- Running the statement leaves less than `n` to do, and is no step of the
rally. -/
def Effect.Lowers {Pc : Type} (weight : Pc → Nat) (n : Nat) : Effect Byte Digest Pc → Prop
  | .go next => weight next < n
  | .sendPacket p next => p.isEcho = false ∧ p.weight + next.elim 0 weight < n
  | .setupEncryption _ next => next.elim 0 weight < n
  | .destroy next => weight next < n
  | .awaitPacket next => ∀ r, weight (next r) < n
  | .fail _ => 0 < n

theorem serverStmt_lowers (C : Crypto Byte Secret Seed Digest)
    (pc : ServerPc Byte Secret Seed Digest) :
    (serverStmt C pc).Lowers ServerPc.weight pc.weight := by
  cases pc with
  | getSharedSecret call r =>
      cases hs : C.getSharedSecret call.choice.dh call.request.publicKey <;>
        simp [serverStmt, hs, Effect.Lowers, ServerPc.weight]
  | _ => simp [serverStmt, Effect.Lowers, ServerPc.weight, Packet.weight, Packet.isEcho]

theorem clientStmt_lowers (C : Crypto Byte Secret Seed Digest)
    {pc : ClientPc Byte Secret Digest} (h : pc ≠ .sendEcho) :
    (clientStmt C pc).Lowers ClientPc.weight pc.weight := by
  cases pc with
  | sendEcho => exact absurd rfl h
  | verifyHash dh r =>
      cases hv : C.verifyHash (r.getHash C) r.signature <;>
        simp [clientStmt, hv, Effect.Lowers, ClientPc.weight]
  | getSharedSecret dh r =>
      cases hs : C.getSharedSecret dh r.publicKey <;>
        simp [clientStmt, hs, Effect.Lowers, ClientPc.weight]
  | _ => simp [clientStmt, Effect.Lowers, ClientPc.weight, Packet.weight, Packet.isEcho]

/-! ## What the operations take and add -/

@[simp] theorem sentEchoes_echo (at_ : End) (mode : Option (AES256 Byte Digest)) (p : EchoPacket) :
    sentEchoes [.sent at_ ⟨mode, .echo p⟩] = [(at_, p)] := rfl

/-- Storing or removing a call exchanges its weight. -/
theorem putCall_weight {Pc : Type} (weight : Pc → Nat) {pc : Pc} (next : Option Pc)
    {calls : List Pc} {n : Nat} (h : calls[n]? = some pc) :
    ((Connection.putCall calls n next).map weight).sum + weight pc =
      (calls.map weight).sum + next.elim 0 weight := by
  induction calls generalizing n with
  | nil => cases h
  | cons pc' calls ih =>
      cases n with
      | zero =>
          obtain rfl := Option.some.inj h
          cases next <;> simp [Connection.putCall] <;> omega
      | succ n =>
          have hsum := ih h
          cases next with
          | none =>
              simp only [Connection.putCall, List.eraseIdx_cons_succ, List.map_cons,
                List.sum_cons] at hsum ⊢
              omega
          | some next =>
              simp only [Connection.putCall, List.set_cons_succ, List.map_cons,
                List.sum_cons] at hsum ⊢
              omega

variable (s : Connection Byte Secret Seed Digest)

theorem sendPacket_exchangeLeft (p : Packet Byte) (at_ : End) :
    (s.sendPacket p at_).exchangeLeft = s.exchangeLeft + p.weight := by
  cases at_ <;> simp [Connection.sendPacket, Connection.exchangeLeft, Connection.inFlight] <;> omega

/-- The exchange's packets are no part of the rally. -/
theorem sendPacket_echoLeft {p : Packet Byte} (hp : p.isEcho = false) (at_ : End) :
    (s.sendPacket p at_).echoLeft = s.echoLeft := by
  cases p with
  | echo p => cases hp
  | _ =>
      cases at_ <;>
        simp [Connection.sendPacket, Connection.echoLeft, Connection.inFlight, sentEchoes,
          Packet.isEcho]

/-- An echo that is sent is one echo less to send, and two steps at its receiver. -/
theorem sendPacket_echo_left (p : EchoPacket) (at_ : End)
    (hroom : (sentEchoes s.log).length < echoRange) :
    (s.sendPacket (.echo p) at_).exchangeLeft = s.exchangeLeft ∧
      (s.sendPacket (.echo p) at_).echoLeft < s.echoLeft := by
  refine ⟨sendPacket_exchangeLeft s _ _, ?_⟩
  have hecho : (Packet.echo p : Packet Byte).isEcho = true := rfl
  cases at_ <;>
    simp only [Connection.sendPacket, Connection.echoLeft, Connection.inFlight, sentEchoes_append,
      sentEchoes_echo, hecho, List.map_append, List.map_cons, List.map_nil, List.countP_append,
      List.countP_cons, List.countP_nil, List.length_append, List.length_singleton, if_true] <;>
    omega

theorem setupEncryption_left (e : AES256 Byte Digest) (at_ : End) :
    (s.setupEncryption e at_).exchangeLeft = s.exchangeLeft ∧
      (s.setupEncryption e at_).echoLeft = s.echoLeft := by
  cases at_ <;>
    simp [Connection.setupEncryption, Connection.exchangeLeft, Connection.echoLeft,
      Connection.inFlight, sentEchoes]

/-- An event other than a `send_packet` is no part of what is left. -/
theorem note_left (ev : Event Byte Digest) (hev : ∀ at_ m, ev ≠ .sent at_ m) :
    (s.note ev).exchangeLeft = s.exchangeLeft ∧ (s.note ev).echoLeft = s.echoLeft := by
  refine ⟨rfl, ?_⟩
  cases ev with
  | sent at_ m => exact absurd rfl (hev at_ m)
  | _ => simp [Connection.note, Connection.echoLeft, Connection.inFlight, sentEchoes]

variable {s}

/-- Storing a `process_echo` call exchanges its weight. -/
theorem putEcho_left {n : Nat} {pc : EchoPc} {at_ : End}
    (hpc : (s.endpoint at_).echoes[n]? = some pc) (next : Option EchoPc) :
    (s.putEcho n next at_).exchangeLeft = s.exchangeLeft ∧
      (s.putEcho n next at_).echoLeft + pc.weight = s.echoLeft + next.elim 0 EchoPc.weight := by
  have hsum := putCall_weight EchoPc.weight next hpc
  cases at_ <;> refine ⟨rfl, ?_⟩ <;>
    simp only [Connection.echoLeft, Connection.putEcho, Connection.inFlight, Connection.endpoint,
      List.map_append, List.sum_append] at hsum ⊢ <;> omega

/-- A packet taken off its channel. -/
theorem dropIncoming_left {at_ : End} {m : Sealed Byte Digest} {rest : List (Sealed Byte Digest)}
    (hin : (s.endpoint at_).incoming = m :: rest) :
    (s.dropIncoming at_).exchangeLeft + m.packet.weight = s.exchangeLeft ∧
      (s.dropIncoming at_).echoLeft + 2 * [m.packet].countP Packet.isEcho = s.echoLeft := by
  cases at_ <;>
    simp only [Connection.endpoint] at hin <;>
    simp only [Connection.dropIncoming, Connection.exchangeLeft, Connection.echoLeft,
      Connection.inFlight, hin, List.tail_cons, List.map_append, List.map_cons, List.sum_append,
      List.sum_cons, List.countP_append, List.countP_cons, List.countP_nil] <;>
    omega

/-- A packet handed over causes less than its arrival was worth. -/
theorem dispatch_left (s : Connection Byte Secret Seed Digest) (c : ServerChoice Byte Secret Seed)
    (at_ : End) (p : Packet Byte) :
    (s.dispatch c at_ p).exchangeLeft ≤ s.exchangeLeft + (p.weight - 1) ∧
      (s.dispatch c at_ p).echoLeft ≤ s.echoLeft + [p].countP Packet.isEcho := by
  cases at_ <;> cases p <;>
    simp [Connection.dispatch, Connection.exchangeLeft, Connection.echoLeft, Connection.inFlight,
      Packet.weight, ServerPc.weight, EchoPc.weight, Packet.isEcho] <;> omega

/-- A statement of the exchange takes from the exchange, and leaves the rally
as it is. -/
theorem perform_left {Pc : Type} {weight : Pc → Nat} {n : Nat} {at_ : End}
    {put : Connection Byte Secret Seed Digest → Option Pc → Connection Byte Secret Seed Digest}
    (hput : ∀ u next, u.coroutine = s.coroutine → u.handlers = s.handlers →
      (put u next).exchangeLeft + n = u.exchangeLeft + next.elim 0 weight ∧
        (put u next).echoLeft = u.echoLeft)
    {eff : Effect Byte Digest Pc} (heff : eff.Lowers weight n)
    {t : Connection Byte Secret Seed Digest} (h : s.perform at_ put eff = some t) :
    t.exchangeLeft < s.exchangeLeft ∧ t.echoLeft = s.echoLeft := by
  cases eff with
  | go next =>
      obtain rfl := Option.some.inj h
      obtain ⟨hexchange, hecho⟩ := hput s (some next) rfl rfl
      simp only [Effect.Lowers, Option.elim_some] at heff hexchange
      exact ⟨by omega, hecho⟩
  | sendPacket p next =>
      obtain rfl := Option.some.inj h
      obtain ⟨hexchange, hecho⟩ := hput (s.sendPacket p at_) next
        (by cases at_ <;> rfl) (by cases at_ <;> rfl)
      rw [sendPacket_exchangeLeft] at hexchange
      rw [sendPacket_echoLeft s heff.1] at hecho
      have hlt := heff.2
      exact ⟨by omega, hecho⟩
  | setupEncryption e next =>
      obtain rfl := Option.some.inj h
      obtain ⟨hexchange, hecho⟩ := hput (s.setupEncryption e at_) next
        (by cases at_ <;> rfl) (by cases at_ <;> rfl)
      obtain ⟨hsame, hsame'⟩ := setupEncryption_left s e at_
      simp only [Effect.Lowers] at heff
      exact ⟨by omega, hecho.trans hsame'⟩
  | destroy next =>
      obtain rfl := Option.some.inj h
      obtain ⟨hexchange, hecho⟩ := hput (s.note (.destroyed at_)) (some next) rfl rfl
      obtain ⟨hsame, hsame'⟩ := note_left s (.destroyed at_) fun _ _ => by simp
      simp only [Effect.Lowers, Option.elim_some] at heff hexchange
      exact ⟨by omega, hecho.trans hsame'⟩
  | awaitPacket next =>
      obtain ⟨r, rest, -, rfl⟩ := perform_awaitPacket.mp h
      obtain ⟨hexchange, hecho⟩ := hput { s with inbox := rest } (some (next r)) rfl rfl
      have hlt := heff r
      have hsame : ({ s with inbox := rest } : Connection Byte Secret Seed Digest).exchangeLeft =
        s.exchangeLeft := rfl
      simp only [Option.elim_some] at hexchange
      exact ⟨by omega, hecho⟩
  | fail e =>
      obtain rfl := Option.some.inj h
      obtain ⟨hexchange, hecho⟩ := hput (s.note (.failed at_ e)) none rfl rfl
      obtain ⟨hsame, hsame'⟩ := note_left s (.failed at_ e) fun _ _ => by simp
      simp only [Effect.Lowers, Option.elim_none] at heff hexchange
      exact ⟨by omega, hecho.trans hsame'⟩

/-! ## Every step takes something -/

variable [DecidableEq Byte] [DecidableEq Digest] {C : Crypto Byte Secret Seed Digest}
  {t : Connection Byte Secret Seed Digest} {act : Action Byte Secret Seed}

/-- A step takes from the exchange or from the rally, and adds to neither, as
long as no more echoes are sent than there are numerals. -/
def TakesFrom (s t : Connection Byte Secret Seed Digest) : Prop :=
  t.exchangeLeft < s.exchangeLeft ∧ t.echoLeft ≤ s.echoLeft ∨
    t.exchangeLeft ≤ s.exchangeLeft ∧ t.echoLeft < s.echoLeft

theorem arrive_left {at_ : End} {c : ServerChoice Byte Secret Seed}
    (h : s.deliver at_ c = some t) : TakesFrom s t := by
  unfold Connection.deliver at h
  split at h
  · cases h
  · rename_i m rest hin
    obtain ⟨hexchange, hecho⟩ := dropIncoming_left hin
    have hnote := note_left (s.dropIncoming at_)
      (.arrived at_ m (s.endpoint at_).cipher) fun _ _ => by simp
    have hdispatch := dispatch_left
      ((s.dropIncoming at_).note (.arrived at_ m (s.endpoint at_).cipher)) c at_ m.packet
    have hworth : 0 < m.packet.weight ∨ [m.packet].countP Packet.isEcho = 1 := by
      cases m.packet <;> simp [Packet.weight, Packet.isEcho]
    split at h <;> obtain rfl := Option.some.inj h <;> unfold TakesFrom <;> omega

theorem echo_left {at_ : End} {n : Nat} (hroom : (sentEchoes t.log).length ≤ echoRange)
    (h : s.step C (.echo at_ n) = some t) : TakesFrom s t := by
  obtain ⟨pc, hpc, h⟩ := Option.bind_eq_some_iff.mp h
  cases pc with
  | sendPacket response =>
      obtain rfl := Option.some.inj h
      have hlt : (sentEchoes s.log).length < echoRange := by
        rw [(putEcho_frame _ _ _ _).1] at hroom
        cases at_ <;> simpa [Connection.sendPacket, Nat.succ_le_iff] using hroom
      obtain ⟨hexchange, hecho⟩ := sendPacket_echo_left s response at_ hlt
      have hpc' : ((s.sendPacket (.echo response) at_).endpoint at_).echoes[n]? =
          some (.sendPacket response) := by cases at_ <;> exact hpc
      obtain ⟨hexchange', hecho'⟩ := putEcho_left hpc' none
      simp only [EchoPc.weight, Option.elim_none] at hecho'
      exact .inr ⟨(hexchange'.trans hexchange).le, hecho'.trans_lt hecho⟩
  | answer p =>
      simp only [echoStmt] at h
      cases hpe : processEcho p with
      | ok response =>
          rw [hpe] at h
          obtain rfl := Option.some.inj h
          obtain ⟨hexchange, hecho⟩ := putEcho_left hpc (some (.sendPacket response))
          simp only [EchoPc.weight, Option.elim_some] at hecho
          exact .inr ⟨hexchange.le, Nat.lt_of_succ_le hecho.le⟩
      | error err =>
          rw [hpe] at h
          obtain rfl := Option.some.inj h
          obtain ⟨hsame, hsame'⟩ :=
            note_left s (.failed at_ (.echo err)) fun _ _ => by simp
          have hpc' : ((s.note (.failed at_ (.echo err))).endpoint at_).echoes[n]? =
              some (.answer p) := by cases at_ <;> exact hpc
          obtain ⟨hexchange, hecho⟩ := putEcho_left hpc' none
          simp only [EchoPc.weight, Option.elim_none] at hecho
          exact .inr ⟨(hexchange.trans hsame).le, Nat.lt_of_succ_le (hecho.trans hsame').le⟩

theorem handler_left {n : Nat} (h : s.step C (.handler n) = some t) :
    t.exchangeLeft < s.exchangeLeft ∧ t.echoLeft = s.echoLeft := by
  obtain ⟨pc, hpc, h⟩ := Option.bind_eq_some_iff.mp h
  refine perform_left ?_ (serverStmt_lowers C pc) h
  intro u next _ hsame
  refine ⟨?_, rfl⟩
  have hsum := putCall_weight ServerPc.weight next (hsame ▸ hpc : u.handlers[n]? = some pc)
  simp only [Connection.exchangeLeft, Connection.inFlight]
  omega

/-- Every step takes something. -/
theorem step_left (hroom : (sentEchoes t.log).length ≤ echoRange) (h : s.step C act = some t) :
    TakesFrom s t := by
  cases act with
  | arrive at_ c => exact arrive_left h
  | echo at_ n => exact echo_left hroom h
  | handler n => exact .inl ⟨(handler_left h).1, (handler_left h).2.le⟩
  | coroutine =>
      obtain ⟨pc, hpc, h⟩ := Option.bind_eq_some_iff.mp h
      by_cases hpe : pc = .sendEcho
      · subst hpe
        obtain rfl := Option.some.inj h
        have hlt : (sentEchoes s.log).length < echoRange := by
          simpa [Connection.sendPacket, Nat.succ_le_iff] using hroom
        obtain ⟨hexchange, hecho⟩ := sendPacket_echo_left s firstEcho .client hlt
        refine .inr ⟨?_, hecho⟩
        rw [← hexchange]
        have hkeep : (s.sendPacket (.echo firstEcho) .client).coroutine = some .sendEcho := hpc
        simp [Connection.exchangeLeft, Connection.inFlight, hkeep, ClientPc.weight]
      · suffices hlt : t.exchangeLeft < s.exchangeLeft ∧ t.echoLeft = s.echoLeft from
          .inl ⟨hlt.1, hlt.2.le⟩
        refine perform_left ?_ (clientStmt_lowers C hpe) h
        intro u next hsame _
        refine ⟨?_, rfl⟩
        rw [hpc] at hsame
        simp only [Connection.exchangeLeft, Connection.inFlight, hsame, Option.elim_some]
        omega

end PacketDistribution.Session
