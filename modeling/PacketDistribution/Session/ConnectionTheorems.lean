/-
PacketDistribution.Session.ConnectionTheorems — what every run of one
connection looks like, whatever the order of its steps.

`Phase` lists the shapes a reachable connection can have. From the response
on, the two ends move independently, so the server's side (`ServerAfter`)
and the client's side (`ClientAfter`) are described apart. Once both ends
have the cipher the connection is a rally of one `EchoPacket`: `rallying`
is its state and `rallying_step` its step function, read as a relation.
`Phase.step` shows that no step leaves the list.

The shapes do not mention in which order the server installs its cipher and
the client's echo arrives, so they hold of the runs in which the echo comes
too early as well.
-/
import PacketDistribution.Session.Connection

namespace PacketDistribution.Session

open PacketDistribution.Lib
open PacketDistribution.Packets

variable {Byte Secret Seed Digest : Type} (C : Crypto Byte Secret Seed Digest) (dh : Secret)

/-! ## The rally of echoes -/

/-- The other end. -/
def End.other : End → End
  | .client => .server
  | .server => .client

/-- Where the one `EchoPacket` is, at the end that is to answer it: on its
way there, in a `process_echo` call, or nowhere, if a call has failed. -/
inductive EchoPlace where
  | inFlight (p : EchoPacket)
  | handled (pc : EchoPc)
  | lost

/-- The end the packet is at. -/
def EchoPlace.endpoint (e : AES256 Byte Digest) : EchoPlace → Endpoint Byte Digest
  | .inFlight p => ⟨some e, [⟨some e, .echo p⟩], []⟩
  | .handled pc => ⟨some e, [], [pc]⟩
  | .lost => ⟨some e, [], []⟩

/-- A connection after the handshake under the cipher `e`, with the packet
at `at_`. -/
def rallying (e : AES256 Byte Digest) (at_ : End) (b : EchoPlace) (log : List (Event Byte Digest)) :
    Connection Byte Secret Seed Digest :=
  match at_ with
  | .client => ⟨none, [], [], b.endpoint e, EchoPlace.lost.endpoint e, log⟩
  | .server => ⟨none, [], [], EchoPlace.lost.endpoint e, b.endpoint e, log⟩

/-- One step of a rally. -/
inductive RallyStep (e : AES256 Byte Digest) (at_ : End) (log : List (Event Byte Digest)) :
    EchoPlace → Action Byte Secret Seed → End → EchoPlace → List (Event Byte Digest) → Prop where
  | arrive (p : EchoPacket) (c : ServerChoice Byte Secret Seed) :
      RallyStep e at_ log (.inFlight p) (.arrive at_ c) at_ (.handled (.answer p))
        (log ++ [.arrived at_ ⟨some e, .echo p⟩ (some e)])
  | answer {p response : EchoPacket} : processEcho p = .ok response →
      RallyStep e at_ log (.handled (.answer p)) (.echo at_ 0) at_
        (.handled (.sendPacket response)) log
  | fail {p : EchoPacket} {err : EchoFailure} : processEcho p = .error err →
      RallyStep e at_ log (.handled (.answer p)) (.echo at_ 0) at_ .lost
        (log ++ [.failed at_ (.echo err)])
  | send (response : EchoPacket) :
      RallyStep e at_ log (.handled (.sendPacket response)) (.echo at_ 0) at_.other
        (.inFlight response) (log ++ [.sent at_ ⟨some e, .echo response⟩])

/-! ## The shapes of a connection -/

/-- The client's request. -/
def ownRequest : DHKeyExchangeRequestPacket Byte := ⟨C.getPublicKey dh⟩

/-- The server's side from `send_packet(response_packet)` on: the running
call has still to install `e`, or it has returned and `e` is installed. -/
inductive ServerAfter (e : AES256 Byte Digest) :
    List (ServerPc Byte Secret Seed Digest) → Option (AES256 Byte Digest) → Prop where
  | pending {pc : ServerPc Byte Secret Seed Digest} :
      pc.sent = true → pc.outcome C = some (none, e) → ServerAfter e [pc] none
  | installed : ServerAfter e [] (some e)

/-- The client's side from the response on, until it sends its first echo:
coroutine, cipher, incoming channel and inbox. -/
inductive ClientAfter (r : DHKeyExchangeResponsePacket Byte) (e : AES256 Byte Digest) :
    ClientPc Byte Secret Digest → Option (AES256 Byte Digest) → List (Sealed Byte Digest) →
      List (DHKeyExchangeResponsePacket Byte) → Prop where
  | inFlight : ClientAfter r e (.awaitResponse dh) none [⟨none, .response r⟩] []
  | waiting : ClientAfter r e (.awaitResponse dh) none [] [r]
  | computing {pc : ClientPc Byte Secret Digest} :
      pc.received = true → pc.outcome C = some e → ClientAfter r e pc none [] []
  | installed : ClientAfter r e .sendEcho (some e) [] []

/-- The log shows the exchange that the cipher `e` was derived from: this
client's request, and a response this server made to it. -/
def Exchanged (e : AES256 Byte Digest) (log : List (Event Byte Digest)) : Prop :=
  ∃ c : ServerChoice Byte Secret Seed, serverCipher C ⟨ownRequest C dh, c⟩ = some e ∧
    Event.sent .client ⟨none, .request (ownRequest C dh)⟩ ∈ log ∧
    Event.sent .server ⟨none, .response (serverResponse C c)⟩ ∈ log

/-- The shapes of a reachable connection. -/
inductive Phase : Connection Byte Secret Seed Digest → Prop where
  | opening {log : List (Event Byte Digest)} :
      Phase ⟨some (.getPublicKey dh), [], [], ⟨none, [], []⟩, ⟨none, [], []⟩, log⟩
  | prepared {log : List (Event Byte Digest)} :
      Phase ⟨some (.sendRequest dh (ownRequest C dh)), [], [], ⟨none, [], []⟩,
        ⟨none, [], []⟩, log⟩
  | requested {log : List (Event Byte Digest)} :
      Event.sent .client ⟨none, .request (ownRequest C dh)⟩ ∈ log →
      Phase ⟨some (.awaitResponse dh), [], [], ⟨none, [], []⟩,
        ⟨none, [⟨none, .request (ownRequest C dh)⟩], []⟩, log⟩
  | handling {pc : ServerPc Byte Secret Seed Digest} {c : ServerChoice Byte Secret Seed}
      {log : List (Event Byte Digest)} :
      pc.sent = false →
      pc.outcome C = (serverCipher C ⟨ownRequest C dh, c⟩).map
        (fun e => (some (serverResponse C c), e)) →
      Event.sent .client ⟨none, .request (ownRequest C dh)⟩ ∈ log →
      Phase ⟨some (.awaitResponse dh), [], [pc], ⟨none, [], []⟩, ⟨none, [], []⟩, log⟩
  | refused {log : List (Event Byte Digest)} :
      Phase ⟨some (.awaitResponse dh), [], [], ⟨none, [], []⟩, ⟨none, [], []⟩, log⟩
  | answered {c : ServerChoice Byte Secret Seed} {e : AES256 Byte Digest}
      {hd : List (ServerPc Byte Secret Seed Digest)} {sc cc : Option (AES256 Byte Digest)}
      {pc : ClientPc Byte Secret Digest} {cin : List (Sealed Byte Digest)}
      {inbox : List (DHKeyExchangeResponsePacket Byte)} {log : List (Event Byte Digest)} :
      serverCipher C ⟨ownRequest C dh, c⟩ = some e → ServerAfter C e hd sc →
      ClientAfter C dh (serverResponse C c) e pc cc cin inbox →
      Exchanged C dh e log →
      Phase ⟨some pc, inbox, hd, ⟨cc, cin, []⟩, ⟨sc, [], []⟩, log⟩
  | echoSent {e : AES256 Byte Digest}
      {hd : List (ServerPc Byte Secret Seed Digest)} {sc : Option (AES256 Byte Digest)}
      {log : List (Event Byte Digest)} :
      ServerAfter C e hd sc → Exchanged C dh e log →
      Phase ⟨none, [], hd, ⟨some e, [], []⟩, ⟨sc, [⟨some e, .echo firstEcho⟩], []⟩, log⟩
  | echoLost {e : AES256 Byte Digest} {hd : List (ServerPc Byte Secret Seed Digest)}
      {sc : Option (AES256 Byte Digest)} {log : List (Event Byte Digest)} :
      ServerAfter C e hd sc → Exchanged C dh e log →
      Phase ⟨none, [], hd, ⟨some e, [], []⟩, ⟨sc, [], []⟩, log⟩
  | rally {e : AES256 Byte Digest} {at_ : End} {b : EchoPlace} {log : List (Event Byte Digest)} :
      Exchanged C dh e log → Phase (rallying e at_ b log)

variable {C dh}

/-- The log only grows, so the exchange stays in it. -/
theorem Exchanged.append {e : AES256 Byte Digest} {log : List (Event Byte Digest)}
    (h : Exchanged C dh e log) (more : List (Event Byte Digest)) :
    Exchanged C dh e (log ++ more) := by
  obtain ⟨c, he, hreq, hresp⟩ := h
  exact ⟨c, he, List.mem_append_left _ hreq, List.mem_append_left _ hresp⟩

/-- A list with one element has it at index `0` only. -/
theorem singleton_getElem? {α : Type} {a b : α} {n : Nat} (h : [a][n]? = some b) :
    n = 0 ∧ b = a := by
  cases n with
  | zero => exact ⟨rfl, (Option.some.inj h).symm⟩
  | succ n => cases h

variable [DecidableEq Byte] [DecidableEq Digest]
  {s t : Connection Byte Secret Seed Digest}

/-! ## What a step can change -/

omit [DecidableEq Byte] [DecidableEq Digest] in
/-- `await_packet` returns the first response of the inbox. -/
theorem perform_awaitPacket {Pc : Type} {at_ : End}
    {put : Connection Byte Secret Seed Digest → Option Pc → Connection Byte Secret Seed Digest}
    {next : DHKeyExchangeResponsePacket Byte → Pc} :
    s.perform at_ put (.awaitPacket next) = some t ↔
      ∃ r rest, s.inbox = r :: rest ∧ put { s with inbox := rest } (some (next r)) = t := by
  cases hi : s.inbox with
  | nil => simp [Connection.perform, hi]
  | cons r rest => simp [Connection.perform, hi]

omit [DecidableEq Byte] [DecidableEq Digest] in
/-- A statement of a call logs no arrival, moves no other call, and changes
the client's cipher only by the client's own `setup_encryption`. -/
theorem perform_frame {Pc : Type} {at_ : End}
    {put : Connection Byte Secret Seed Digest → Option Pc → Connection Byte Secret Seed Digest}
    {eff : Effect Byte Digest Pc} (h : s.perform at_ put eff = some t) :
    ∃ u next, t = put u next ∧
      (∀ at' m opened, Event.arrived at' m opened ∈ u.log → .arrived at' m opened ∈ s.log) ∧
      u.coroutine = s.coroutine ∧
      (at_ = .server ∨ (∀ e n, eff ≠ .setupEncryption e n) →
        u.client.cipher = s.client.cipher) := by
  cases eff with
  | go next =>
      obtain rfl := Option.some.inj h
      exact ⟨s, _, rfl, fun _ _ _ hm => hm, rfl, fun _ => rfl⟩
  | sendPacket p next =>
      obtain rfl := Option.some.inj h
      refine ⟨s.sendPacket p at_, _, rfl, ?_, ?_, ?_⟩
      · intro at' m opened hm
        cases at_ <;> simpa [Connection.sendPacket] using hm
      · cases at_ <;> rfl
      · intro _
        cases at_ <;> rfl
  | setupEncryption e next =>
      obtain rfl := Option.some.inj h
      refine ⟨s.setupEncryption e at_, _, rfl, ?_, ?_, ?_⟩
      · intro at' m opened hm
        cases at_ <;> simpa [Connection.setupEncryption] using hm
      · cases at_ <;> rfl
      · rintro (rfl | hne)
        · rfl
        · exact absurd rfl (hne e next)
  | destroy next =>
      obtain rfl := Option.some.inj h
      exact ⟨s.note (.destroyed at_), _, rfl, fun _ _ _ hm => by simpa [Connection.note] using hm,
        rfl, fun _ => rfl⟩
  | awaitPacket next =>
      obtain ⟨r, rest, -, rfl⟩ := perform_awaitPacket.mp h
      exact ⟨{ s with inbox := rest }, _, rfl, fun _ _ _ hm => hm, rfl, fun _ => rfl⟩
  | fail e =>
      obtain rfl := Option.some.inj h
      exact ⟨s.note (.failed at_ e), _, rfl, fun _ _ _ hm => by simpa [Connection.note] using hm,
        rfl, fun _ => rfl⟩

omit [DecidableEq Byte] [DecidableEq Digest] in
/-- Storing a call logs nothing, installs no cipher and moves no other call. -/
theorem putEcho_frame (s : Connection Byte Secret Seed Digest) (n : Nat) (next : Option EchoPc)
    (at_ : End) :
    (s.putEcho n next at_).log = s.log ∧ (s.putEcho n next at_).coroutine = s.coroutine ∧
      (s.putEcho n next at_).client.cipher = s.client.cipher := by
  cases at_ <;> exact ⟨rfl, rfl, rfl⟩

omit [DecidableEq Byte] [DecidableEq Digest] in
/-- Handing a packet over logs nothing, installs no cipher and does not move
the coroutine. -/
theorem dispatch_frame (s : Connection Byte Secret Seed Digest)
    (c : ServerChoice Byte Secret Seed) (at_ : End) (p : Packet Byte) :
    (s.dispatch c at_ p).log = s.log ∧ (s.dispatch c at_ p).coroutine = s.coroutine ∧
      (s.dispatch c at_ p).client.cipher = s.client.cipher := by
  cases at_ <;> cases p <;> exact ⟨rfl, rfl, rfl⟩

/-- An arrival is the head of a channel, opened with the receiver's cipher. -/
theorem deliver_frame {at_ : End} {c : ServerChoice Byte Secret Seed}
    (h : s.deliver at_ c = some t) :
    ∃ m rest, (s.endpoint at_).incoming = m :: rest ∧
      t.log = s.log ++ [.arrived at_ m (s.endpoint at_).cipher] ∧
      t.coroutine = s.coroutine ∧ t.client.cipher = s.client.cipher := by
  have hdrop : (s.dropIncoming at_).log = s.log ∧
      (s.dropIncoming at_).coroutine = s.coroutine ∧
      (s.dropIncoming at_).client.cipher = s.client.cipher := by
    cases at_ <;> exact ⟨rfl, rfl, rfl⟩
  unfold Connection.deliver at h
  split at h
  · cases h
  · rename_i m rest hin
    refine ⟨m, rest, hin, ?_⟩
    split at h
    · obtain rfl := Option.some.inj h
      simp [dispatch_frame, Connection.note, hdrop]
    · obtain rfl := Option.some.inj h
      simp [Connection.note, hdrop]

/-! ## The rally step by step -/

omit [DecidableEq Byte] [DecidableEq Digest] in
/-- In a rally one end has the packet and the other has nothing. -/
theorem rallying_endpoint (e : AES256 Byte Digest) (at_ at' : End) (b : EchoPlace)
    (log : List (Event Byte Digest)) :
    (rallying e at_ b log : Connection Byte Secret Seed Digest).endpoint at' =
      if at' = at_ then b.endpoint e else EchoPlace.lost.endpoint e := by
  cases at_ <;> cases at' <;> rfl

/-- The steps of a rally are those of `RallyStep`. -/
theorem rallying_step {e : AES256 Byte Digest} {at_ : End} {b : EchoPlace}
    {log : List (Event Byte Digest)} {act : Action Byte Secret Seed} :
    (rallying e at_ b log).step C act = some t ↔
      ∃ at' b' log', RallyStep e at_ log b act at' b' log' ∧ t = rallying e at' b' log' := by
  constructor
  · intro h
    cases act with
    | coroutine => cases at_ <;> cases h
    | handler n => cases at_ <;> simp [rallying, Connection.step] at h
    | arrive at' c =>
        obtain ⟨m, rest, hin, -, -⟩ := deliver_frame h
        rw [rallying_endpoint] at hin
        split at hin
        · rename_i hat
          subst hat
          cases b with
          | handled pc => cases hin
          | lost => cases hin
          | inFlight p =>
              refine ⟨_, _, _, .arrive p c, ?_⟩
              cases at' <;>
              · simp only [Connection.step, Connection.deliver, Connection.endpoint, rallying,
                  EchoPlace.endpoint, if_true] at h
                exact (Option.some.inj h).symm
        · cases hin
    | echo at' n =>
        obtain ⟨pc, hpc, h⟩ := Option.bind_eq_some_iff.mp h
        rw [rallying_endpoint] at hpc
        split at hpc
        · rename_i hat
          subst hat
          cases b with
          | inFlight p => cases hpc
          | lost => cases hpc
          | handled pc' =>
              obtain ⟨rfl, rfl⟩ := singleton_getElem? hpc
              cases pc with
              | sendPacket response =>
                  refine ⟨_, _, _, .send response, ?_⟩
                  cases at' <;> exact (Option.some.inj h).symm
              | answer p =>
                  simp only [echoStmt] at h
                  cases hpe : processEcho p with
                  | ok response =>
                      refine ⟨_, _, _, .answer hpe, ?_⟩
                      rw [hpe] at h
                      cases at' <;> exact (Option.some.inj h).symm
                  | error err =>
                      refine ⟨_, _, _, .fail hpe, ?_⟩
                      rw [hpe] at h
                      cases at' <;> exact (Option.some.inj h).symm
        · cases hpc
  · rintro ⟨at', b', log', hstep, rfl⟩
    cases hstep with
    | arrive p c =>
        cases at_ <;>
          simp [Connection.step, Connection.deliver, rallying, Connection.endpoint,
            EchoPlace.endpoint, Connection.dropIncoming, Connection.note, Connection.dispatch]
    | answer hpe =>
        cases at_ <;>
          simp [Connection.step, rallying, Connection.endpoint, EchoPlace.endpoint, echoStmt, hpe,
            Connection.perform, Connection.putEcho, Connection.putCall]
    | fail hpe =>
        cases at_ <;>
          simp [Connection.step, rallying, Connection.endpoint, EchoPlace.endpoint, echoStmt, hpe,
            Connection.perform, Connection.putEcho, Connection.putCall, Connection.note]
    | send response => cases at_ <;> rfl

/-! ## Steps keep the shape -/

/-- A step of the rally. -/
theorem Exchanged.rally {e : AES256 Byte Digest} {at_ : End} {b : EchoPlace}
    {log : List (Event Byte Digest)} {act : Action Byte Secret Seed}
    (hx : Exchanged C dh e log) (h : (rallying e at_ b log).step C act = some t) :
    Phase C dh t := by
  obtain ⟨at', b', log', hstep, rfl⟩ := rallying_step.mp h
  cases hstep with
  | arrive p c => exact .rally (hx.append _)
  | answer hpe => exact .rally hx
  | fail hpe => exact .rally (hx.append _)
  | send response => exact .rally (hx.append _)

/-- The next statement of the coroutine. -/
theorem Phase.coroutine (hC : C.Lawful) (hp : Phase C dh s)
    (h : s.step C .coroutine = some t) : Phase C dh t := by
  cases hp with
  | opening =>
      obtain rfl := Option.some.inj h
      exact .prepared
  | prepared =>
      obtain rfl := Option.some.inj h
      exact .requested (List.mem_append_right _ (List.mem_singleton.mpr rfl))
  | requested hreq => cases h
  | handling hsent hout hreq => cases h
  | refused => cases h
  | @answered c e hd sc cc pc cin inbox log he hsv hcl hx =>
      cases hcl with
      | inFlight => cases h
      | waiting =>
          obtain rfl := Option.some.inj h
          refine .answered he hsv (.computing rfl ?_) hx
          show clientCipher C dh (serverResponse C c) = some e
          rw [clientCipher_serverResponse hC]
          exact he
      | computing hrecv ho =>
          rcases clientStmt_outcome C hrecv with
            ⟨next, hnext | hnext, hrecv', ho'⟩ | ⟨e', hinstall, he'⟩ | ⟨-, hnone⟩
          · simp only [Connection.step, Option.bind_some, Connection.perform, hnext] at h
            obtain rfl := Option.some.inj h
            exact .answered he hsv (.computing hrecv' (ho'.trans ho)) hx
          · simp only [Connection.step, Option.bind_some, Connection.perform, hnext] at h
            obtain rfl := Option.some.inj h
            exact .answered he hsv (.computing hrecv' (ho'.trans ho)) (hx.append _)
          · simp only [Connection.step, Option.bind_some, Connection.perform, hinstall] at h
            obtain rfl := Option.some.inj h
            obtain rfl : e' = e := Option.some.inj (he'.symm.trans ho)
            exact .answered he hsv .installed (hx.append _)
          · rw [ho] at hnone
            cases hnone
      | installed =>
          obtain rfl := Option.some.inj h
          exact .echoSent hsv (hx.append _)
  | echoSent hsv hx => cases h
  | echoLost hsv hx => cases h
  | rally hx => exact hx.rally h

/-- Once it has sent the response, the handler only changes its own control
point and the server's cipher. -/
theorem ServerAfter.step {e : AES256 Byte Digest} {n : Nat}
    (hsv : ServerAfter C e s.handlers s.server.cipher)
    (h : s.step C (.handler n) = some t) :
    ∃ hd sc evs, ServerAfter C e hd sc ∧
      t = { s with
        handlers := hd, server := { s.server with cipher := sc }, log := s.log ++ evs } := by
  obtain ⟨co, inbox, hd, cl, ⟨sc, sin, se⟩, log⟩ := s
  simp only at hsv
  cases hsv with
  | @pending pc hsent ho =>
      simp only [Connection.step, Option.bind_eq_some_iff] at h
      obtain ⟨pc', hpc, h⟩ := h
      obtain ⟨rfl, rfl⟩ := singleton_getElem? hpc
      rcases serverStmt_outcome_sent C hsent ho with ⟨next, hnext, hsent', ho'⟩ | hinstall
      · simp only [hnext, Connection.perform] at h
        obtain rfl := Option.some.inj h
        exact ⟨[next], none, [], .pending hsent' ho', by simp [Connection.putCall]⟩
      · simp only [hinstall, Connection.perform] at h
        obtain rfl := Option.some.inj h
        exact ⟨[], some e, [.installed .server e], .installed, by
          simp [Connection.putCall, Connection.setupEncryption]⟩
  | installed => simp [Connection.step] at h

/-- The next statement of a handler call. -/
theorem Phase.handler {n : Nat} (hp : Phase C dh s) (h : s.step C (.handler n) = some t) :
    Phase C dh t := by
  cases hp with
  | opening => simp [Connection.step] at h
  | prepared => simp [Connection.step] at h
  | requested hreq => simp [Connection.step] at h
  | refused => simp [Connection.step] at h
  | rally hx => exact hx.rally h
  | @handling pc c log hsent hout hreq =>
      simp only [Connection.step, Option.bind_eq_some_iff] at h
      obtain ⟨pc', hpc, h⟩ := h
      obtain ⟨rfl, rfl⟩ := singleton_getElem? hpc
      rcases serverStmt_outcome C hsent with
        ⟨next, hnext, hsent', ho'⟩ | ⟨r, e, next, hsend, hsent', ho, ho'⟩ | ⟨hfail, -⟩
      · simp only [hnext, Connection.perform] at h
        obtain rfl := Option.some.inj h
        exact .handling hsent' (ho'.trans hout) hreq
      · -- the response leaves: it is the one the whole call was going to send
        rw [hout] at ho
        obtain ⟨e', he, heq⟩ := Option.map_eq_some_iff.mp ho
        obtain ⟨hr, rfl⟩ := Prod.mk.inj heq
        obtain rfl := Option.some.inj hr
        simp only [hsend, Connection.perform] at h
        obtain rfl := Option.some.inj h
        exact .answered he (.pending hsent' ho') .inFlight
          ⟨c, he, List.mem_append_left _ hreq,
            List.mem_append_right _ (List.mem_singleton.mpr rfl)⟩
      · simp only [hfail, Connection.perform] at h
        obtain rfl := Option.some.inj h
        exact .refused
  | answered he hsv hcl hx =>
      obtain ⟨hd', sc', evs, hsv', rfl⟩ := hsv.step h
      exact .answered he hsv' hcl (hx.append evs)
  | echoSent hsv hx =>
      obtain ⟨hd', sc', evs, hsv', rfl⟩ := hsv.step h
      exact .echoSent hsv' (hx.append evs)
  | echoLost hsv hx =>
      obtain ⟨hd', sc', evs, hsv', rfl⟩ := hsv.step h
      exact .echoLost hsv' (hx.append evs)

/-- The next statement of a `process_echo` call. -/
theorem Phase.echo {at_ : End} {n : Nat} (hp : Phase C dh s)
    (h : s.step C (.echo at_ n) = some t) : Phase C dh t := by
  cases hp with
  | rally hx => exact hx.rally h
  | _ => cases at_ <;> simp [Connection.step, Connection.endpoint] at h

/-- An arrival. The client's echo may find the server without its cipher;
it is then lost. -/
theorem Phase.arrive {at_ : End} {c : ServerChoice Byte Secret Seed} (hp : Phase C dh s)
    (h : s.step C (.arrive at_ c) = some t) : Phase C dh t := by
  cases hp with
  | opening => cases at_ <;> cases h
  | prepared => cases at_ <;> cases h
  | handling hsent hout hreq => cases at_ <;> cases h
  | refused => cases at_ <;> cases h
  | echoLost hsv hx => cases at_ <;> cases h
  | requested hreq =>
      cases at_ with
      | client => cases h
      | server =>
          obtain rfl := Option.some.inj h
          exact .handling (c := c) rfl rfl (List.mem_append_left _ hreq)
  | answered he hsv hcl hx =>
      cases at_ with
      | server => cases h
      | client =>
          cases hcl with
          | inFlight =>
              obtain rfl := Option.some.inj h
              exact .answered he hsv .waiting (hx.append _)
          | waiting => cases h
          | computing hrecv ho => cases h
          | installed => cases h
  | @echoSent e hd sc log hsv hx =>
      cases at_ with
      | client => cases h
      | server =>
          cases hsv with
          | pending hsent ho =>
              obtain rfl := Option.some.inj h
              exact .echoLost (.pending hsent ho) (hx.append _)
          | installed =>
              simp only [Connection.step, Connection.deliver, Connection.endpoint, if_true] at h
              obtain rfl := Option.some.inj h
              show Phase C dh (rallying e .server (.handled (.answer firstEcho)) _)
              exact .rally (hx.append _)
  | rally hx => exact hx.rally h

/-- No step leaves the list of shapes. -/
theorem Phase.step {act : Action Byte Secret Seed} (hC : C.Lawful) (hp : Phase C dh s)
    (h : s.step C act = some t) : Phase C dh t := by
  cases act with
  | coroutine => exact hp.coroutine hC h
  | handler n => exact hp.handler h
  | echo at_ n => exact hp.echo h
  | arrive at_ c => exact hp.arrive h

/-- Every reachable connection has one of the shapes. -/
theorem phase_of_reach (hC : C.Lawful)
    {ok : Connection Byte Secret Seed Digest → Action Byte Secret Seed → Prop}
    (h : (connection C dh).Reach ok s) : Phase C dh s := by
  refine h.invariant ?_ fun s a t hp _ hs => hp.step hC hs
  rintro s rfl
  exact .opening

/-! ## What a step adds to the log -/

/-- Every arrival in the log after a step was there before, or is the step. -/
theorem arrived_mem_step {act : Action Byte Secret Seed} (h : s.step C act = some t) {at_ : End}
    {m : Sealed Byte Digest} {opened : Option (AES256 Byte Digest)}
    (hm : Event.arrived at_ m opened ∈ t.log) :
    Event.arrived at_ m opened ∈ s.log ∨
      ∃ c rest, act = .arrive at_ c ∧ (s.endpoint at_).incoming = m :: rest ∧
        opened = (s.endpoint at_).cipher := by
  cases act with
  | coroutine =>
      obtain ⟨pc, -, h⟩ := Option.bind_eq_some_iff.mp h
      obtain ⟨u, next, rfl, hlog, -⟩ := perform_frame h
      exact .inl (hlog _ _ _ hm)
  | handler n =>
      obtain ⟨pc, -, h⟩ := Option.bind_eq_some_iff.mp h
      obtain ⟨u, next, rfl, hlog, -⟩ := perform_frame h
      exact .inl (hlog _ _ _ hm)
  | echo at' n =>
      obtain ⟨pc, -, h⟩ := Option.bind_eq_some_iff.mp h
      obtain ⟨u, next, rfl, hlog, -⟩ := perform_frame h
      rw [(putEcho_frame u n next at').1] at hm
      exact .inl (hlog _ _ _ hm)
  | arrive at' c =>
      obtain ⟨m', rest, hin, hlog, -⟩ := deliver_frame h
      rw [hlog, List.mem_append, List.mem_singleton] at hm
      rcases hm with hm | hm
      · exact .inl hm
      · obtain ⟨rfl, rfl, rfl⟩ := Event.arrived.inj hm
        exact .inr ⟨c, rest, rfl, hin, rfl⟩

/-- Only its own statements move the coroutine. -/
theorem coroutine_frame {act : Action Byte Secret Seed} (h : s.step C act = some t)
    (hact : act ≠ .coroutine) : t.coroutine = s.coroutine := by
  cases act with
  | coroutine => exact absurd rfl hact
  | handler n =>
      obtain ⟨pc, -, h⟩ := Option.bind_eq_some_iff.mp h
      obtain ⟨u, next, rfl, -, hsame, -⟩ := perform_frame h
      exact hsame
  | echo at_ n =>
      obtain ⟨pc, -, h⟩ := Option.bind_eq_some_iff.mp h
      obtain ⟨u, next, rfl, -, hsame, -⟩ := perform_frame h
      rw [(putEcho_frame u n next at_).2.1, hsame]
  | arrive at_ c =>
      obtain ⟨m, rest, -, -, hsame, -⟩ := deliver_frame h
      exact hsame

omit [DecidableEq Byte] [DecidableEq Digest] in
/-- `process_echo` installs no cipher. -/
theorem echoStmt_ne_setupEncryption (pc : EchoPc) (e : AES256 Byte Digest) (n : Option EchoPc) :
    echoStmt pc ≠ .setupEncryption e n := by
  cases pc with
  | sendPacket response => simp [echoStmt]
  | answer p =>
      simp only [echoStmt]
      cases processEcho p <;> simp

/-- Once the client has a cipher it keeps it. -/
theorem Phase.client_cipher {act : Action Byte Secret Seed} (hp : Phase C dh s)
    (h : s.step C act = some t) {e : AES256 Byte Digest} (he : s.client.cipher = some e) :
    t.client.cipher = some e := by
  rw [← he]
  cases act with
  | handler n =>
      obtain ⟨pc, -, h⟩ := Option.bind_eq_some_iff.mp h
      obtain ⟨u, next, rfl, -, -, hcipher⟩ := perform_frame h
      exact hcipher (.inl rfl)
  | echo at_ n =>
      obtain ⟨pc, -, h⟩ := Option.bind_eq_some_iff.mp h
      obtain ⟨u, next, rfl, -, -, hcipher⟩ := perform_frame h
      rw [(putEcho_frame u n next at_).2.2]
      exact hcipher (.inr fun e n => echoStmt_ne_setupEncryption pc e n)
  | arrive at_ c =>
      obtain ⟨m, rest, -, -, -, hcipher⟩ := deliver_frame h
      exact hcipher
  | coroutine =>
      -- the coroutine still runs and the cipher is there: only the echo is left to send
      cases hp with
      | answered _ hsv hcl hx =>
          cases hcl with
          | installed =>
              obtain rfl := Option.some.inj h
              rfl
          | _ => cases he
      | echoSent hsv hx => cases h
      | echoLost hsv hx => cases h
      | @rally e at_ b log hx => cases at_ <;> cases h
      | _ => cases he

/-! ## What can arrive -/

variable (C dh) in
/-- What is at the head of a channel, and the state it meets: the parts of
the exchange meet ends without a cipher; an echo meets the cipher it was
sealed with, or, too early, a handler call that has not installed it yet. -/
inductive Arriving (s : Connection Byte Secret Seed Digest) : End → Sealed Byte Digest → Prop where
  | request : s.server.cipher = none → (∀ pc ∈ s.handlers, pc.sent = false) →
      Arriving s .server ⟨none, .request (ownRequest C dh)⟩
  | response {e : AES256 Byte Digest} (c : ServerChoice Byte Secret Seed) :
      s.client.cipher = none → serverCipher C ⟨ownRequest C dh, c⟩ = some e →
      Arriving s .client ⟨none, .response (serverResponse C c)⟩
  | echo {at_ : End} {e : AES256 Byte Digest} (p : EchoPacket) :
      (s.endpoint at_).cipher = some e → s.client.cipher = some e → s.handlers = [] →
      Arriving s at_ ⟨some e, .echo p⟩
  | early {e : AES256 Byte Digest} {pc : ServerPc Byte Secret Seed Digest} (p : EchoPacket) :
      s.server.cipher = none → pc ∈ s.handlers → pc.sent = true →
      Arriving s .server ⟨some e, .echo p⟩

omit [DecidableEq Byte] [DecidableEq Digest] in
theorem Phase.arriving (hp : Phase C dh s) {at_ : End} {m : Sealed Byte Digest}
    {rest : List (Sealed Byte Digest)} (hin : (s.endpoint at_).incoming = m :: rest) :
    Arriving C dh s at_ m := by
  cases hp with
  | requested hreq =>
      cases at_ with
      | client => cases hin
      | server =>
          obtain ⟨rfl, -⟩ := List.cons.inj hin
          exact .request rfl fun pc hpc => by cases hpc
  | answered he hsv hcl hx =>
      cases at_ with
      | server => cases hin
      | client =>
          cases hcl with
          | inFlight =>
              obtain ⟨rfl, -⟩ := List.cons.inj hin
              exact .response _ rfl he
          | _ => cases hin
  | @echoSent e hd sc log hsv hx =>
      cases at_ with
      | client => cases hin
      | server =>
          obtain ⟨rfl, -⟩ := List.cons.inj hin
          cases hsv with
          | pending hsent ho => exact .early firstEcho rfl (List.mem_singleton.mpr rfl) hsent
          | installed => exact .echo firstEcho rfl rfl rfl
  | @rally e at' b log hx =>
      rw [rallying_endpoint] at hin
      split at hin
      · rename_i hat
        subst hat
        cases b with
        | inFlight p =>
            obtain ⟨rfl, -⟩ := List.cons.inj hin
            cases at_ <;> exact .echo p rfl rfl rfl
        | _ => cases hin
      · cases hin
  | _ => cases at_ <;> cases hin

end PacketDistribution.Session
