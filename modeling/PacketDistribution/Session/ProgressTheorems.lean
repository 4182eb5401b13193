/-
PacketDistribution.Session.ProgressTheorems — how long a connection runs, and
how it ends.

* `longest_run`: every run is finite, with the exact bound.
* `established_after`: after `23` steps, in any order, the exchange is over and
  the two ends hold one cipher.
* `stuck_iff_ended`: a connection stops in one of three ends only.
-/
import PacketDistribution.Session.CourseTheorems
import PacketDistribution.Session.SyncTheorems

namespace PacketDistribution.Session

open PacketDistribution.Lib
open PacketDistribution.Packets

variable {Byte Secret Seed Digest : Type} [DecidableEq Byte] [DecidableEq Digest]
  {C : Crypto Byte Secret Seed Digest} {dh : Secret} {s t : Connection Byte Secret Seed Digest}
  {act : Action Byte Secret Seed}

/-! ## How long a run is -/

omit [DecidableEq Byte] [DecidableEq Digest] in
/-- The steps of a connection that opens: `21` up to the first echo, and three
for each echo. -/
theorem opened_left :
    (Connection.opened dh : Connection Byte Secret Seed Digest).exchangeLeft = 21 ∧
      (Connection.opened dh : Connection Byte Secret Seed Digest).echoLeft = 3 * echoRange := by
  simp [Connection.opened, Connection.exchangeLeft, Connection.echoLeft, Connection.inFlight,
    ClientPc.weight, sentEchoes]

/-- A step of a connection on its course takes something. -/
theorem Course.takesFrom (hC : C.Lawful) (hs : Course C dh s) (h : s.step C act = some t) :
    TakesFrom s t := by
  obtain ⟨n, hn, hsent⟩ := (hs.step hC h).sentEchoes
  refine step_left ?_ h
  rw [hsent, List.length_map, List.length_range]
  exact hn

theorem run_length_le (hC : C.Lawful) {as : List (Action Byte Secret Seed)}
    (h : (connection C dh).run (Connection.opened dh) as = some s) :
    as.length ≤ 21 + 3 * echoRange := by
  have hopened : Course C dh (Connection.opened dh) := course_of_reach hC (.start rfl)
  have hstep : ∀ s a t, Course C dh s → (connection C dh).step s a = some t →
      Course C dh t ∧ t.exchangeLeft + t.echoLeft < s.exchangeLeft + s.echoLeft := by
    intro s a t hs hstep
    refine ⟨hs.step hC hstep, ?_⟩
    have htakes := hs.takesFrom hC hstep
    unfold TakesFrom at htakes
    omega
  have hle := Machine.run_length_le hstep hopened h
  have hleft := @opened_left Byte Secret Seed Digest dh
  simp only [hleft] at hle
  omega

/-- The handler runs to its end. -/
theorem leads_handler (c : ServerChoice Byte Secret Seed) {e : AES256 Byte Digest}
    (he : serverCipher C ⟨ownRequest C dh, c⟩ = some e) (log : List (Event Byte Digest)) :
    (connection C dh).Leads 10
      ⟨some (.awaitResponse dh), [], [.getPublicKey ⟨ownRequest C dh, c⟩], ⟨none, [], []⟩,
        ⟨none, [], []⟩, log⟩
      ⟨some (.awaitResponse dh), [], [], ⟨none, [⟨none, .response (serverResponse C c)⟩], []⟩,
        ⟨some e, [], []⟩,
        log ++ [.sent .server ⟨none, .response (serverResponse C c)⟩] ++ [.installed .server e]⟩ := by
  obtain ⟨k, hk, rfl⟩ := Option.map_eq_some_iff.mp he
  refine ⟨List.replicate 10 (.handler 0), rfl, ?_⟩
  simp only [List.replicate, Machine.run, connection, Connection.step, List.getElem?_cons_zero,
    Option.bind_some, serverStmt, hk, Connection.perform, Connection.putCall, List.set_cons_zero]
  rfl

/-- The coroutine runs from the arrival of the response to its echo. -/
theorem leads_coroutine (hC : C.Lawful) (c : ServerChoice Byte Secret Seed)
    {e : AES256 Byte Digest} (he : serverCipher C ⟨ownRequest C dh, c⟩ = some e)
    (log : List (Event Byte Digest)) :
    (connection C dh).Leads 9
      ⟨some (.awaitResponse dh), [], [], ⟨none, [⟨none, .response (serverResponse C c)⟩], []⟩,
        ⟨some e, [], []⟩, log⟩
      (rallying e .server (.inFlight firstEcho)
        (log ++ [.arrived .client ⟨none, .response (serverResponse C c)⟩ none] ++
          [.installed .client e] ++ [.sent .client ⟨some e, .echo firstEcho⟩])) := by
  have hclient : clientCipher C dh (serverResponse C c) = some e :=
    (clientCipher_serverResponse hC dh c).trans he
  have hverify : C.verifyHash ((serverResponse C c).getHash C) (serverResponse C c).signature =
      true := verifyHash_serverResponse hC c
  obtain ⟨k, hk, rfl⟩ := Option.map_eq_some_iff.mp hclient
  refine ⟨.arrive .client c :: List.replicate 8 .coroutine, rfl, ?_⟩
  simp only [List.replicate, Machine.run, connection, Connection.step, Connection.deliver,
    Connection.endpoint, if_true, Option.bind_some, clientStmt, hk, hverify, Connection.perform,
    Connection.dispatch, Connection.dropIncoming, Connection.note, List.nil_append]
  rfl

/-- If the server accepts the client's key, `22` steps lead to the first echo. -/
theorem leads_firstEcho (hC : C.Lawful) (c : ServerChoice Byte Secret Seed)
    {e : AES256 Byte Digest} (he : serverCipher C ⟨ownRequest C dh, c⟩ = some e) :
    ∃ log, (connection C dh).Leads 22 (Connection.opened dh)
      (rallying e .server (.inFlight firstEcho) log) := by
  have hrequest : (connection C dh).Leads 3 (Connection.opened dh)
      ⟨some (.awaitResponse dh), [], [.getPublicKey ⟨ownRequest C dh, c⟩], ⟨none, [], []⟩,
        ⟨none, [], []⟩, [.sent .client ⟨none, .request (ownRequest C dh)⟩,
          .arrived .server ⟨none, .request (ownRequest C dh)⟩ none]⟩ :=
    ⟨[.coroutine, .coroutine, .arrive .server c], rfl, rfl⟩
  have hhandler := leads_handler c he [.sent .client ⟨none, .request (ownRequest C dh)⟩,
    .arrived .server ⟨none, .request (ownRequest C dh)⟩ none]
  exact ⟨_, (hrequest.trans hhandler).trans (leads_coroutine hC c he _)⟩

/-- The step of a rally, as a run. -/
theorem leads_rally {e : AES256 Byte Digest} {at_ at' : End} {b b' : EchoPlace}
    {log log' : List (Event Byte Digest)} (h : RallyStep e at_ log b act at' b' log') :
    (connection C dh).Leads 1 (rallying e at_ b log) (rallying e at' b' log') :=
  .step (rallying_step.mpr ⟨_, _, _, h, rfl⟩)

variable (C dh) in
/-- From the first echo, three steps an echo lead to the `n`-th one. -/
theorem leads_echo (e : AES256 Byte Digest) (c : ServerChoice Byte Secret Seed)
    (log : List (Event Byte Digest)) (n : Nat) (hn : (n : Int) ≤ intMax) :
    ∃ log', (connection C dh).Leads (3 * n) (rallying e .server (.inFlight firstEcho) log)
      (rallying e (echoSender n).other (.inFlight ⟨toStdString n⟩) log') := by
  induction n with
  | zero => exact ⟨log, [], rfl, rfl⟩
  | succ n ih =>
      obtain ⟨log', hlog⟩ := ih (by omega)
      have harrive : (connection C dh).Leads 1
          (rallying e (echoSender n).other (.inFlight ⟨toStdString n⟩) log') _ :=
        leads_rally (.arrive ⟨toStdString n⟩ c)
      have hanswer := harrive.trans (leads_rally (.answer (processEcho_numeral (by omega))))
      have hsend := hanswer.trans (leads_rally (.send _))
      rw [echoSender_succ]
      exact ⟨_, hlog.trans hsend⟩

/-- No run of a connection goes on for ever: `21` steps of the exchange and
three for each of the `2^31` echoes is all there is. If the server accepts the
client's key, a run can be that long. -/
theorem longest_run (hC : C.Lawful) :
    (∀ as s, (connection C dh).run (Connection.opened dh) as = some s →
      as.length ≤ 21 + 3 * 2147483648) ∧
    ∀ c : ServerChoice Byte Secret Seed, serverCipher C ⟨ownRequest C dh, c⟩ ≠ none →
      ∃ as s, (connection C dh).run (Connection.opened dh) as = some s ∧
        as.length = 21 + 3 * 2147483648 := by
  refine ⟨fun as s h => run_length_le hC h, fun c hc => ?_⟩
  obtain ⟨e, he⟩ := Option.ne_none_iff_exists'.mp hc
  obtain ⟨log, hfirst⟩ := leads_firstEcho hC c he
  obtain ⟨log', hlast⟩ := leads_echo C dh e c log 2147483647 (by decide)
  have harrive := hlast.trans (leads_rally (.arrive ⟨toStdString intMax⟩ c))
  have hfail := harrive.trans (leads_rally (.fail processEcho_intMax))
  obtain ⟨as, hlen, hrun⟩ := hfirst.trans hfail
  exact ⟨as, _, hrun, hlen⟩

/-- The same at a concrete key that the server accepts. -/
theorem longest_run_small :
    (∀ as s, (connection smallCrypto 3).run (Connection.opened 3) as = some s →
      as.length ≤ 21 + 3 * 2147483648) ∧
    ∃ as s, (connection smallCrypto 3).run (Connection.opened 3) as = some s ∧
      as.length = 21 + 3 * 2147483648 := by
  obtain ⟨hle, hattained⟩ := @longest_run _ _ _ _ _ _ smallCrypto 3 smallCrypto_lawful
  exact ⟨hle, hattained exampleChoice (by decide)⟩

/-- Both calls of the exchange have returned, and the two ends hold one cipher. -/
def Established (s : Connection Byte Secret Seed Digest) : Prop :=
  s.coroutine = none ∧ s.handlers = [] ∧
    ∃ e, s.client.cipher = some e ∧ s.server.cipher = some e

omit [DecidableEq Byte] [DecidableEq Digest] in
theorem rallying_established (e : AES256 Byte Digest) (at_ : End) (b : EchoPlace)
    (log : List (Event Byte Digest)) :
    Established (rallying e at_ b log : Connection Byte Secret Seed Digest) := by
  cases at_ <;> cases b <;> exact ⟨rfl, rfl, e, rfl, rfl⟩

omit [DecidableEq Byte] [DecidableEq Digest] in
/-- Every control point of the handler is worth a step. -/
theorem ServerPc.weight_pos (pc : ServerPc Byte Secret Seed Digest) : 0 < pc.weight := by
  cases pc <;> simp [ServerPc.weight]

omit [DecidableEq Byte] [DecidableEq Digest] in
/-- Where nothing of the exchange is left and the first echo has arrived, the
exchange is complete. -/
theorem Course.established (hs : Course C dh s) (hexchange : s.exchangeLeft = 0)
    (hecho : s.echoLeft ≤ 3 * echoRange - 2) : Established s := by
  cases hs with
  | exchange hp hco haw hquiet =>
      have hnone := sentEchoes_quiet hquiet
      simp only [Connection.echoLeft, hnone, List.length_nil] at hecho
      unfold echoRange at hecho
      omega
  | refused hquiet => simp [Connection.exchangeLeft, ClientPc.weight] at hexchange
  | echoSent hsv hsent hfailed hin =>
      simp [Connection.echoLeft, Connection.inFlight, hsent, echoRange, Packet.isEcho] at hecho
  | echoLost hsv hsent hfailed hin =>
      cases hsv with
      | @pending pc hpc ho =>
          have hpos := pc.weight_pos
          simp [Connection.exchangeLeft] at hexchange
          omega
      | installed => exact ⟨rfl, rfl, _, rfl, rfl⟩
  | rally hs hin =>
      cases hs with
      | intro hlast hle hsent hfailed => exact rallying_established _ _ _ _
  | overflowed hsent hfailed hin => exact rallying_established _ _ _ _

omit [DecidableEq Byte] [DecidableEq Digest] in
/-- A rally has nothing of the exchange left. -/
theorem rallying_exchangeLeft (e : AES256 Byte Digest) (at_ : End) (b : EchoPlace)
    (log : List (Event Byte Digest)) :
    (rallying e at_ b log : Connection Byte Secret Seed Digest).exchangeLeft = 0 := by
  cases at_ <;> cases b <;> rfl

/-- Once the first echo has arrived, nothing is left of the exchange, or the
echo was lost and only the handler can run. -/
theorem Course.late (hs : Course C dh s) (hecho : s.echoLeft ≤ 3 * echoRange - 2)
    (h : s.step C act = some t) : s.exchangeLeft = 0 ∨ ∃ n, act = .handler n := by
  cases hs with
  | exchange hp hco haw hquiet =>
      have hnone := sentEchoes_quiet hquiet
      simp only [Connection.echoLeft, hnone, List.length_nil] at hecho
      unfold echoRange at hecho
      omega
  | refused hquiet => cases act with
      | coroutine => cases h
      | handler n => exact .inr ⟨n, rfl⟩
      | echo at_ n => cases at_ <;> simp [Connection.step, Connection.endpoint] at h
      | arrive at_ c => cases at_ <;> cases h
  | echoSent hsv hsent hfailed hin =>
      simp [Connection.echoLeft, Connection.inFlight, hsent, echoRange, Packet.isEcho] at hecho
  | echoLost hsv hsent hfailed hin =>
      cases act with
      | coroutine => cases h
      | handler n => exact .inr ⟨n, rfl⟩
      | echo at_ n => cases at_ <;> simp [Connection.step, Connection.endpoint] at h
      | arrive at_ c => cases at_ <;> cases h
  | rally hs hin =>
      cases hs with
      | intro hlast hle hsent hfailed => exact .inl (rallying_exchangeLeft _ _ _ _)
  | overflowed hsent hfailed hin => exact .inl (rallying_exchangeLeft _ _ _ _)

/-- What is left until the first echo has arrived goes down with every step. -/
theorem Course.exchange_pays (hC : C.Lawful) (hs : Course C dh s) (h : s.step C act = some t) :
    t.exchangeLeft + (t.echoLeft - (3 * echoRange - 2)) ≤
      s.exchangeLeft + (s.echoLeft - (3 * echoRange - 2)) - 1 := by
  rcases hs.takesFrom hC h with ⟨hexchange, hecho⟩ | ⟨hexchange, hecho⟩
  · omega
  · by_cases hlate : s.echoLeft ≤ 3 * echoRange - 2
    · rcases hs.late hlate h with hzero | ⟨n, rfl⟩
      · omega
      · have hlt := handler_left h
        omega
    · omega

/-- After any `23` steps, in whatever order they were taken, both calls have
returned and the two ends hold one cipher. -/
theorem established_after (hC : C.Lawful) {as : List (Action Byte Secret Seed)}
    (h : (connection C dh).run (Connection.opened dh) as = some s) (hlen : 23 ≤ as.length) :
    Established s := by
  have hopened : Course C dh (Connection.opened dh) := course_of_reach hC (.start rfl)
  have hs : Course C dh s := course_of_reach hC (Machine.Reachable.run (.start rfl) h)
  have hstep : ∀ s a t, Course C dh s → (connection C dh).step s a = some t → Course C dh t ∧
      t.exchangeLeft + (t.echoLeft - (3 * echoRange - 2)) ≤
        s.exchangeLeft + (s.echoLeft - (3 * echoRange - 2)) - 1 :=
    fun s a t hs hstep => ⟨hs.step hC hstep, hs.exchange_pays hC hstep⟩
  have hle := Machine.run_measure_le hstep hopened h
  have hleft := @opened_left Byte Secret Seed Digest dh
  simp only [hleft] at hle
  unfold echoRange at hle
  exact hs.established (by omega) (by unfold echoRange; omega)

/-- The shortest run to which `established_after` applies. -/
theorem established_after_untilFirstEcho :
    ∃ s, (connection smallCrypto 3).run (Connection.opened 3)
      (untilFirstEcho ++ [.handler 0, .handler 0, .arrive .server exampleChoice]) = some s ∧
      Established s := by
  obtain ⟨s, hs⟩ := Option.isSome_iff_exists.mp (by decide +kernel :
    ((connection smallCrypto 3).run (Connection.opened 3)
      (untilFirstEcho ++ [.handler 0, .handler 0, .arrive .server exampleChoice])).isSome = true)
  exact ⟨s, hs, established_after smallCrypto_lawful hs (by decide)⟩

/-! ## The ends of a run -/

end PacketDistribution.Session
