/-
PacketDistribution.Session.CourseTheorems — a connection and its log, from the
coroutine's first statement to the end.

`Phase` says which states a connection can be in; `Course` says with which
log. The exchange is quiet (`Event.Quiet`) until the client has sent its echo;
from there on the log holds the echoes counted so far, and at most one
accident, which is the last thing that happens: the server throws on the
client's key, the first echo comes before the server has its cipher, or
`process_echo` meets `INT_MAX`.

* `echoes_count_up`: in every run the echoes sent are `0, 1, 2, …`, at most
  `2^31` of them. `echoRange` is that number.
-/
import PacketDistribution.Session.StepsLeft

namespace PacketDistribution.Session

open PacketDistribution.Lib
open PacketDistribution.Packets

variable {Byte Secret Seed Digest : Type} [DecidableEq Byte] [DecidableEq Digest]
  {C : Crypto Byte Secret Seed Digest} {s t : Connection Byte Secret Seed Digest}
  {act : Action Byte Secret Seed}

/-! ## What a step adds to the log -/

/-- What a statement leaves in the log, at an end with the cipher `mode`. -/
def Effect.events {Pc : Type} (at_ : End) (mode : Option (AES256 Byte Digest)) :
    Effect Byte Digest Pc → List (Event Byte Digest)
  | .sendPacket p _ => [.sent at_ ⟨mode, p⟩]
  | .setupEncryption e _ => [.installed at_ e]
  | .destroy _ => [.destroyed at_]
  | .fail e => [.failed at_ e]
  | .go _ => []
  | .awaitPacket _ => []

omit [DecidableEq Byte] [DecidableEq Digest] in
theorem perform_events {Pc : Type} {at_ : End}
    {put : Connection Byte Secret Seed Digest → Option Pc → Connection Byte Secret Seed Digest}
    (hput : ∀ u next, (put u next).log = u.log) {eff : Effect Byte Digest Pc}
    (h : s.perform at_ put eff = some t) :
    t.log = s.log ++ eff.events at_ (s.endpoint at_).cipher := by
  cases eff with
  | awaitPacket next =>
      obtain ⟨r, rest, -, rfl⟩ := perform_awaitPacket.mp h
      simp [hput, Effect.events]
  | sendPacket p next =>
      obtain rfl := Option.some.inj h
      cases at_ <;> simp [hput, Effect.events, Connection.sendPacket, Connection.endpoint]
  | setupEncryption e next =>
      obtain rfl := Option.some.inj h
      cases at_ <;> simp [hput, Effect.events, Connection.setupEncryption]
  | _ =>
      obtain rfl := Option.some.inj h
      simp [hput, Effect.events, Connection.note]

/-- An event of an undisturbed exchange: no echo was sent, nothing was opened
in another mode than it was sealed in, and nothing failed. -/
def Event.Quiet : Event Byte Digest → Prop
  | .sent _ m => m.packet.isEcho = false
  | .arrived _ m opened => opened = m.mode
  | .failed _ _ => False
  | .installed _ _ => True
  | .destroyed _ => True

/-- No call has failed. -/
def NoFailure (log : List (Event Byte Digest)) : Prop :=
  ∀ at_ err, Event.failed at_ err ∉ log

/-- Every packet that arrived was opened in the mode it was sealed in. -/
def InMode (log : List (Event Byte Digest)) : Prop :=
  ∀ at_ m opened, Event.arrived at_ m opened ∈ log → opened = m.mode

/-- An echo was opened in another mode than it was sealed in. -/
def EchoLost (log : List (Event Byte Digest)) : Prop :=
  ∃ at_ mode echo opened, Event.arrived at_ ⟨mode, .echo echo⟩ opened ∈ log ∧ opened ≠ mode

section Quiet

omit [DecidableEq Byte] [DecidableEq Digest]

variable {log more : List (Event Byte Digest)}

theorem sentEchoes_quiet (h : ∀ ev ∈ log, ev.Quiet) : sentEchoes log = [] := by
  refine List.filterMap_eq_nil_iff.mpr fun ev hev => ?_
  have hquiet := h ev hev
  cases ev with
  | sent at_ m =>
      obtain ⟨mode, p⟩ := m
      cases p with
      | echo p => cases hquiet
      | _ => rfl
  | _ => rfl

theorem noFailure_quiet (h : ∀ ev ∈ log, ev.Quiet) : NoFailure log :=
  fun _ _ hm => h _ hm

theorem inMode_quiet (h : ∀ ev ∈ log, ev.Quiet) : InMode log :=
  fun _ _ _ hm => h _ hm

theorem NoFailure.append (h : NoFailure log) (hmore : NoFailure more) : NoFailure (log ++ more) :=
  fun at_ err hm => (List.mem_append.mp hm).elim (h at_ err) (hmore at_ err)

@[simp] theorem inMode_append : InMode (log ++ more) ↔ InMode log ∧ InMode more := by
  constructor
  · intro h
    exact ⟨fun at_ m opened hm => h at_ m opened (List.mem_append_left _ hm),
      fun at_ m opened hm => h at_ m opened (List.mem_append_right _ hm)⟩
  · rintro ⟨h, hmore⟩ at_ m opened hm
    exact (List.mem_append.mp hm).elim (h at_ m opened) (hmore at_ m opened)

theorem inMode_singleton {ev : Event Byte Digest}
    (h : ∀ at_ m opened, ev = .arrived at_ m opened → opened = m.mode) : InMode [ev] :=
  fun at_ m opened hm => h at_ m opened (List.mem_singleton.mp hm).symm

theorem EchoLost.append (h : EchoLost log) (more : List (Event Byte Digest)) :
    EchoLost (log ++ more) := by
  obtain ⟨at_, mode, echo, opened, hmem, hne⟩ := h
  exact ⟨at_, mode, echo, opened, List.mem_append_left _ hmem, hne⟩

theorem quiet_append (h : ∀ ev ∈ log, ev.Quiet) {ev : Event Byte Digest} (hev : ev.Quiet) :
    ∀ x ∈ log ++ [ev], x.Quiet := by
  intro x hx
  rcases List.mem_append.mp hx with hx | hx
  · exact h x hx
  · rw [List.mem_singleton.mp hx]
    exact hev

end Quiet

/-! ## The course of a connection -/

variable {dh : Secret}

/-- A coroutine that waits for its response will get one, unless the handler
throws. -/
def Awaited (dh : Secret) (s : Connection Byte Secret Seed Digest) : Prop :=
  s.coroutine = some (.awaitResponse dh) →
    s.handlers ≠ [] ∨ s.inbox ≠ [] ∨ s.inFlight ≠ []

variable (C dh) in
/-- A connection and its log. The exchange goes on until the client has sent
its echo (`exchange`), unless the server throws on the client's key (`refused`).
The echo is then on its way (`echoSent`), and is lost if it comes before the
server has its cipher (`echoLost`). The rally ends at `INT_MAX` (`overflowed`). -/
inductive Course : Connection Byte Secret Seed Digest → Prop where
  | exchange {s : Connection Byte Secret Seed Digest} :
      Phase C dh s → s.coroutine ≠ none → Awaited dh s → (∀ ev ∈ s.log, ev.Quiet) → Course s
  | refused {log : List (Event Byte Digest)} : (∀ ev ∈ log, ev.Quiet) →
      Course ⟨some (.awaitResponse dh), [], [], ⟨none, [], []⟩, ⟨none, [], []⟩,
        log ++ [.failed .server .badPublicKey]⟩
  | echoSent {e : AES256 Byte Digest} {hd : List (ServerPc Byte Secret Seed Digest)}
      {sc : Option (AES256 Byte Digest)} {log : List (Event Byte Digest)} :
      ServerAfter C e hd sc → sentEchoes log = [echoNumber 0] → NoFailure log → InMode log →
      Course ⟨none, [], hd, ⟨some e, [], []⟩, ⟨sc, [⟨some e, .echo firstEcho⟩], []⟩, log⟩
  | echoLost {e : AES256 Byte Digest} {hd : List (ServerPc Byte Secret Seed Digest)}
      {sc : Option (AES256 Byte Digest)} {log : List (Event Byte Digest)} :
      ServerAfter C e hd sc → sentEchoes log = [echoNumber 0] → NoFailure log → EchoLost log →
      Course ⟨none, [], hd, ⟨some e, [], []⟩, ⟨sc, [], []⟩, log⟩
  | rally {s : Connection Byte Secret Seed Digest} : Counting s → InMode s.log → Course s
  | overflowed {e : AES256 Byte Digest} {at_ : End} {log : List (Event Byte Digest)} :
      sentEchoes log = (List.range echoRange).map echoNumber → NoFailure log → InMode log →
      Course (rallying e at_ .lost (log ++ [.failed at_ (.echo .overflows)]))

/-- Once it has sent the response, the handler's steps are quiet. -/
theorem ServerAfter.step_quiet {e : AES256 Byte Digest} {n : Nat}
    (hsv : ServerAfter C e s.handlers s.server.cipher) (h : s.step C (.handler n) = some t) :
    ∃ hd sc evs, ServerAfter C e hd sc ∧ (∀ ev ∈ evs, ev.Quiet) ∧
      t = { s with
        handlers := hd, server := { s.server with cipher := sc }, log := s.log ++ evs } := by
  obtain ⟨hd, sc, evs, hsv', ht⟩ := hsv.step h
  obtain ⟨pc, hpc, hperform⟩ := Option.bind_eq_some_iff.mp h
  have hlog := perform_events (by intros; rfl) hperform
  have hevs : evs = (serverStmt C pc).events .server (s.endpoint .server).cipher := by
    rw [ht] at hlog
    exact List.append_cancel_left hlog
  refine ⟨hd, sc, evs, hsv', ?_, ht⟩
  generalize s.server.cipher = cipher at hsv
  generalize s.handlers = handlers at hsv hpc
  cases hsv with
  | pending hsent ho =>
      obtain ⟨rfl, rfl⟩ := singleton_getElem? hpc
      rcases serverStmt_outcome_sent C hsent ho with ⟨next, hnext, -⟩ | hinstall
      · simp [hevs, hnext, Effect.events]
      · simp [hevs, hinstall, Effect.events, Event.Quiet]
  | installed => cases hpc

/-- The next statement of the coroutine, up to its echo. -/
theorem Course.coroutine (hp : Phase C dh s) (hp' : Phase C dh t) (hco : s.coroutine ≠ none)
    (hquiet : ∀ ev ∈ s.log, ev.Quiet) (h : s.step C .coroutine = some t) : Course C dh t := by
  cases hp with
  | echoSent hsv hx => exact absurd rfl hco
  | echoLost hsv hx => exact absurd rfl hco
  | @rally e at_ b log hx => cases at_ <;> exact absurd rfl hco
  | refused => cases h
  | requested hreq => cases h
  | handling hsent hout hreq => cases h
  | opening =>
      obtain rfl := Option.some.inj h
      exact .exchange hp' (by simp) (fun h => by cases h) hquiet
  | prepared =>
      obtain rfl := Option.some.inj h
      refine .exchange hp' (by simp) (fun _ => .inr (.inr ?_)) (quiet_append hquiet rfl)
      simp [Connection.inFlight, Connection.sendPacket]
  | answered he hsv hcl hx =>
      cases hcl with
      | inFlight => cases h
      | waiting =>
          obtain rfl := Option.some.inj h
          exact .exchange hp' (by simp) (fun h => by cases h) hquiet
      | computing hrecv ho =>
          rcases clientStmt_outcome C hrecv with
            ⟨next, hnext | hnext, hrecv', -⟩ | ⟨e', hinstall, -⟩ | ⟨-, hnone⟩
          · simp only [Connection.step, Option.bind_some, Connection.perform, hnext] at h
            obtain rfl := Option.some.inj h
            exact .exchange hp' (by simp)
              (fun h => by obtain rfl := Option.some.inj h; cases hrecv') hquiet
          · simp only [Connection.step, Option.bind_some, Connection.perform, hnext] at h
            obtain rfl := Option.some.inj h
            exact .exchange hp' (by simp)
              (fun h => by obtain rfl := Option.some.inj h; cases hrecv')
              (quiet_append hquiet trivial)
          · simp only [Connection.step, Option.bind_some, Connection.perform, hinstall] at h
            obtain rfl := Option.some.inj h
            exact .exchange hp' (by simp) (fun h => by cases h) (quiet_append hquiet trivial)
          · rw [ho] at hnone
            cases hnone
      | installed =>
          obtain rfl := Option.some.inj h
          refine .echoSent hsv ?_ ((noFailure_quiet hquiet).append ?_) ?_
          · show sentEchoes (_ ++ [_]) = _
            rw [sentEchoes_append, sentEchoes_quiet hquiet]
            rfl
          · intro at_ err hm
            cases List.mem_singleton.mp hm
          · exact inMode_append.mpr
              ⟨inMode_quiet hquiet, inMode_singleton fun _ _ _ h => by cases h⟩

/-- The next statement of the handler, while the coroutine runs. -/
theorem Course.handler {n : Nat} (hp : Phase C dh s) (hp' : Phase C dh t)
    (hco : s.coroutine ≠ none) (hquiet : ∀ ev ∈ s.log, ev.Quiet)
    (h : s.step C (.handler n) = some t) : Course C dh t := by
  cases hp with
  | echoSent hsv hx => exact absurd rfl hco
  | echoLost hsv hx => exact absurd rfl hco
  | @rally e at_ b log hx => cases at_ <;> exact absurd rfl hco
  | @handling pc c log hsent hout hreq =>
      simp only [Connection.step, Option.bind_eq_some_iff] at h
      obtain ⟨pc', hpc, h⟩ := h
      obtain ⟨rfl, rfl⟩ := singleton_getElem? hpc
      rcases serverStmt_outcome C hsent with ⟨next, hnext, -⟩ | ⟨r, e, next, hsend, -⟩ | ⟨hfail, -⟩
      · simp only [hnext, Connection.perform] at h
        obtain rfl := Option.some.inj h
        exact .exchange hp' (by simp) (fun _ => .inl (by simp [Connection.putCall])) hquiet
      · simp only [hsend, Connection.perform] at h
        obtain rfl := Option.some.inj h
        refine .exchange hp' (by simp [Connection.sendPacket]) (fun _ => .inl ?_)
          (quiet_append hquiet rfl)
        simp [Connection.putCall, Connection.sendPacket]
      · simp only [hfail, Connection.perform] at h
        obtain rfl := Option.some.inj h
        exact .refused hquiet
  | answered he hsv hcl hx =>
      obtain ⟨hd', sc', evs, -, hevs, rfl⟩ := hsv.step_quiet h
      refine .exchange hp' (by simp) (fun hpc => ?_) ?_
      · cases hcl with
        | inFlight => exact .inr (.inr (by simp [Connection.inFlight]))
        | waiting => exact .inr (.inl (by simp))
        | computing hrecv _ =>
            obtain rfl := Option.some.inj hpc
            cases hrecv
        | installed => cases hpc
      · intro ev hev
        exact (List.mem_append.mp hev).elim (hquiet ev) (hevs ev)
  | _ => simp [Connection.step] at h

/-- An arrival while the coroutine runs. -/
theorem Course.arrive {at_ : End} {c : ServerChoice Byte Secret Seed} (hp : Phase C dh s)
    (hp' : Phase C dh t) (hco : s.coroutine ≠ none) (hquiet : ∀ ev ∈ s.log, ev.Quiet)
    (h : s.step C (.arrive at_ c) = some t) : Course C dh t := by
  cases hp with
  | echoSent hsv hx => exact absurd rfl hco
  | echoLost hsv hx => exact absurd rfl hco
  | @rally e at_ b log hx => cases at_ <;> exact absurd rfl hco
  | requested hreq =>
      cases at_ with
      | client => cases h
      | server =>
          obtain rfl := Option.some.inj h
          exact .exchange hp' hco (fun _ => .inl (List.cons_ne_nil _ _)) (quiet_append hquiet rfl)
  | answered he hsv hcl hx =>
      cases at_ with
      | server => cases h
      | client =>
          cases hcl with
          | inFlight =>
              obtain rfl := Option.some.inj h
              exact .exchange hp' hco (fun _ => .inr (.inl (List.cons_ne_nil _ _)))
                (quiet_append hquiet rfl)
          | _ => cases h
  | _ => cases at_ <;> cases h

/-- A step of the exchange. -/
theorem Course.exchange_step (hC : C.Lawful) (hp : Phase C dh s) (hco : s.coroutine ≠ none)
    (hquiet : ∀ ev ∈ s.log, ev.Quiet) (h : s.step C act = some t) : Course C dh t := by
  have hp' : Phase C dh t := hp.step hC h
  cases act with
  | coroutine => exact .coroutine hp hp' hco hquiet h
  | handler n => exact .handler hp hp' hco hquiet h
  | arrive at_ c => exact .arrive hp hp' hco hquiet h
  | echo at_ n =>
      cases hp with
      | @rally e at' b log hx => cases at' <;> exact absurd rfl hco
      | _ => cases at_ <;> simp [Connection.step, Connection.endpoint] at h

/-- A step after the client has sent its echo and before it has arrived. -/
theorem Course.echoSent_step {e : AES256 Byte Digest}
    {hd : List (ServerPc Byte Secret Seed Digest)} {sc : Option (AES256 Byte Digest)}
    {log : List (Event Byte Digest)} (hsv : ServerAfter C e hd sc)
    (hsent : sentEchoes log = [echoNumber 0]) (hfailed : NoFailure log) (hin : InMode log)
    (h : Connection.step C ⟨none, [], hd, ⟨some e, [], []⟩,
      ⟨sc, [⟨some e, .echo firstEcho⟩], []⟩, log⟩ act = some t) : Course C dh t := by
  cases act with
  | coroutine => cases h
  | echo at_ n => cases at_ <;> simp [Connection.step, Connection.endpoint] at h
  | handler n =>
      obtain ⟨hd', sc', evs, hsv', hevs, rfl⟩ := ServerAfter.step_quiet hsv h
      refine .echoSent hsv' ?_ (hfailed.append (noFailure_quiet hevs))
        (inMode_append.mpr ⟨hin, inMode_quiet hevs⟩)
      rw [sentEchoes_append, hsent, sentEchoes_quiet hevs, List.append_nil]
  | arrive at_ c =>
      cases at_ with
      | client => cases h
      | server =>
          cases hsv with
          | pending hpc ho =>
              obtain rfl := Option.some.inj h
              refine .echoLost (.pending hpc ho) ?_
                (failed_not_mem_append hfailed fun _ _ => by simp) ?_
              · show sentEchoes (log ++ [_]) = _
                rw [sentEchoes_append, hsent]
                rfl
              · exact ⟨_, _, _, _, List.mem_append_right _ (List.mem_singleton.mpr rfl),
                  Option.some_ne_none _ ∘ Eq.symm⟩
          | installed =>
              simp only [Connection.step, Connection.deliver, Connection.endpoint, if_true] at h
              obtain rfl := Option.some.inj h
              refine .rally ?_ (inMode_append.mpr ⟨hin, inMode_singleton fun _ _ _ h => ?_⟩)
              · show Counting (rallying e (echoSender 0).other (.handled (.answer firstEcho)) _)
                refine .intro .answering (by decide) ?_
                  (failed_not_mem_append hfailed fun _ _ => by simp)
                show sentEchoes (log ++ [_]) = _
                rw [sentEchoes_append, hsent]
                rfl
              · obtain ⟨-, rfl, rfl⟩ := Event.arrived.inj h
                rfl

/-- A step of the rally: it counts on, or ends at `INT_MAX`. -/
theorem Course.rally_step (hs : Counting s) (hin : InMode s.log) (h : s.step C act = some t) :
    Course C dh t := by
  have hs' := hs
  cases hs with
  | @intro e n b log hlast hle hsent hfailed =>
      have hlog : ∀ at_ b log, (rallying e at_ b log : Connection Byte Secret Seed Digest).log =
          log := by
        intro at_ b log
        cases at_ <;> rfl
      rw [hlog] at hin
      obtain ⟨at', b', log', hstep, rfl⟩ := rallying_step.mp h
      cases hstep with
      | arrive p c =>
          refine .rally (hs'.step (fun _ _ h => by cases h) h) ?_
          rw [hlog]
          refine inMode_append.mpr ⟨hin, inMode_singleton fun _ _ _ h => ?_⟩
          obtain ⟨-, rfl, rfl⟩ := Event.arrived.inj h
          rfl
      | answer hpe =>
          cases hlast with
          | answering =>
              have hlt : (n : Int) < intMax := by
                by_contra hge
                have hmax : (n : Int) = intMax := by omega
                rw [hmax, processEcho_intMax] at hpe
                cases hpe
              rw [processEcho_numeral hlt] at hpe
              obtain rfl := Except.ok.inj hpe
              exact .rally (.intro (.answered hlt) hle hsent hfailed) (by rw [hlog]; exact hin)
      | fail hpe =>
          cases hlast with
          | answering =>
              have hmax : (n : Int) = intMax := by
                by_contra hne
                rw [processEcho_numeral (by omega)] at hpe
                cases hpe
              rw [hmax, processEcho_intMax] at hpe
              obtain rfl := Except.error.inj hpe
              refine .overflowed ?_ hfailed hin
              have hn : n + 1 = echoRange := by
                unfold intMax at hmax
                unfold echoRange
                omega
              rw [hsent, hn]
      | send response =>
          refine .rally (hs'.step (fun at_ k hact pc hpc => ?_) h) ?_
          · obtain ⟨rfl, rfl⟩ := Action.echo.inj hact
            rw [rallying_endpoint, if_pos rfl] at hpc
            obtain rfl := Option.some.inj hpc
            rfl
          · rw [hlog]
            exact inMode_append.mpr ⟨hin, inMode_singleton fun _ _ _ h => by cases h⟩

/-- No step leaves the course. -/
theorem Course.step (hC : C.Lawful) (hs : Course C dh s) (h : s.step C act = some t) :
    Course C dh t := by
  cases hs with
  | exchange hp hco haw hquiet => exact Course.exchange_step hC hp hco hquiet h
  | echoSent hsv hsent hfailed hin => exact Course.echoSent_step hsv hsent hfailed hin h
  | rally hs hin => exact Course.rally_step hs hin h
  | refused hquiet =>
      cases act with
      | coroutine => cases h
      | handler n => simp [Connection.step] at h
      | echo at_ n => cases at_ <;> simp [Connection.step, Connection.endpoint] at h
      | arrive at_ c => cases at_ <;> cases h
  | echoLost hsv hsent hfailed hlost =>
      cases act with
      | coroutine => cases h
      | echo at_ n => cases at_ <;> simp [Connection.step, Connection.endpoint] at h
      | arrive at_ c => cases at_ <;> cases h
      | handler n =>
          obtain ⟨hd', sc', evs, hsv', hevs, rfl⟩ := ServerAfter.step_quiet hsv h
          refine .echoLost hsv' ?_ (hfailed.append (noFailure_quiet hevs)) (hlost.append evs)
          rw [sentEchoes_append, hsent, sentEchoes_quiet hevs, List.append_nil]
  | overflowed hsent hfailed hin =>
      obtain ⟨at', b', log', hstep, -⟩ := rallying_step.mp h
      cases hstep

/-- Every reachable connection is on the course. -/
theorem course_of_reach (hC : C.Lawful) (h : (connection C dh).Reachable s) : Course C dh s := by
  refine h.invariant ?_ fun s a t hs _ hstep => hs.step hC hstep
  rintro s rfl
  exact .exchange .opening (by simp [Connection.opened]) (fun h => by cases h) fun ev hev => by
    cases hev

/-! ## The echoes of a whole run -/

omit [DecidableEq Byte] [DecidableEq Digest] in
/-- What has been sent of the rally: nothing yet, or the numerals so far. -/
theorem Course.sentEchoes (hs : Course C dh s) :
    ∃ n ≤ echoRange, Session.sentEchoes s.log = (List.range n).map echoNumber := by
  cases hs with
  | exchange hp hco haw hquiet => exact ⟨0, by simp, sentEchoes_quiet hquiet⟩
  | refused hquiet =>
      refine ⟨0, by simp, ?_⟩
      rw [sentEchoes_append, sentEchoes_quiet hquiet]
      rfl
  | echoSent hsv hsent hfailed hin => exact ⟨1, by decide, hsent⟩
  | echoLost hsv hsent hfailed hin => exact ⟨1, by decide, hsent⟩
  | @rally s hs hin =>
      cases hs with
      | @intro e n b log hlast hle hsent hfailed =>
          refine ⟨n + 1, ?_, ?_⟩
          · unfold intMax at hle
            unfold echoRange
            omega
          · cases (echoSender n).other <;> exact hsent
  | @overflowed e at_ log hsent hfailed hin =>
      refine ⟨echoRange, le_rfl, ?_⟩
      have hlog : Session.sentEchoes (log ++ [.failed at_ (.echo .overflows)]) =
          (List.range echoRange).map echoNumber := by
        rw [sentEchoes_append, hsent]
        exact List.append_nil _
      cases at_ <;> exact hlog

/-- In every run of a connection, from the first statement on and in whatever
order its steps are taken, the echoes sent are `0, 1, 2, …` in turn, none twice
and none left out, and there are at most `2^31` of them. -/
theorem echoes_count_up (hC : C.Lawful) (h : (connection C dh).Reachable s) :
    ∃ n ≤ 2147483648, sentEchoes s.log = (List.range n).map echoNumber :=
  (course_of_reach hC h).sentEchoes

/-- A run with two echoes. -/
theorem echoes_count_up_two : ∃ s, (connection smallCrypto 3).Reachable s ∧
    sentEchoes s.log = [(.client, ⟨['0']⟩), (.server, ⟨['1']⟩)] ∧
    ∃ n ≤ 2147483648, sentEchoes s.log = (List.range n).map echoNumber := by
  obtain ⟨s, hs, hlog⟩ := Machine.Reach.exists_run (m := connection smallCrypto 3)
    (untilFirstEcho ++ [.handler 0, .handler 0, .arrive .server exampleChoice, .echo .server 0,
      .echo .server 0])
    (fun s => sentEchoes s.log = [(.client, ⟨['0']⟩), (.server, ⟨['1']⟩)]) (.start rfl)
    (by decide +kernel : Machine.Meets _ (fun _ _ => True) _ _) (by decide +kernel)
  exact ⟨s, hs, of_decide_eq_true hlog, echoes_count_up smallCrypto_lawful hs⟩

end PacketDistribution.Session
