/-
PacketDistribution.Session.FailClosedTheorems — what
`setup_encryption_for_session` does after `verify_hash` has rejected the
response.

The log text of the rejecting branch says "Aborting connection", and the
branch calls `Destroy`; it does not leave the coroutine. `FailClosed` says
that nothing is derived, installed or sent after a rejection.

* `failClosed_iff`: over every run that receives `r`, the coroutine is
  fail-closed exactly when `r` is accepted, or its key is so malformed that
  `get_shared_secret` throws.
-/
import PacketDistribution.Session.Call

namespace PacketDistribution.Session

open PacketDistribution.Lib
open PacketDistribution.Packets

variable {Byte Secret Seed Digest : Type} (C : Crypto Byte Secret Seed Digest)

/-! ## The property -/

/-- The statement is `verify_hash` on a response it rejects. -/
def rejects (x : ClientPc Byte Secret Digest × Deed Byte Digest) : Bool :=
  match x.1 with
  | .verifyHash _ r => !C.verifyHash (r.getHash C) r.signature
  | _ => false

/-- The statement derived a shared secret. -/
def derives (x : ClientPc Byte Secret Digest × Deed Byte Digest) : Bool :=
  match x with
  | (.getSharedSecret _ _, .nothing) => true
  | _ => false

/-- The statement derived no secret, sent nothing and installed nothing. -/
def harmless (x : ClientPc Byte Secret Digest × Deed Byte Digest) : Bool :=
  !derives x && x.2.packet?.isNone && x.2.cipher?.isNone

/-- The coroutine has executed `verify_hash` on a response it rejects. -/
def Rejected (s : Call Byte Digest (ClientPc Byte Secret Digest)) : Prop :=
  ∃ x ∈ s.log, rejects C x = true

/-- No `EchoPacket` was handed to the session. -/
def NoEcho (s : Call Byte Digest (ClientPc Byte Secret Digest)) : Prop :=
  ∀ p ∈ s.sent, p.isEcho = false

/-- Nothing but harmless statements follows a rejection, and after one the
session has its earlier cipher `old` and was handed no echo. -/
structure FailClosed (old : Option (AES256 Byte Digest))
    (s : Call Byte Digest (ClientPc Byte Secret Digest)) : Prop where
  after : s.log.Pairwise fun x y => rejects C x = true → harmless y = true
  cipher : Rejected C s → s.cipher = old
  noEcho : Rejected C s → NoEcho s

/-- The response that arrives, if one does, is `r`. -/
def Receives (r : DHKeyExchangeResponsePacket Byte)
    (_ : Call Byte Digest (ClientPc Byte Secret Digest)) (a : CallAction Byte) : Prop :=
  ∀ r', a = .receive r' → r' = r

variable {C}

/-- Without a rejection there is nothing to close. -/
theorem FailClosed.of_not_rejected {old : Option (AES256 Byte Digest)}
    {s : Call Byte Digest (ClientPc Byte Secret Digest)} (h : ¬ Rejected C s) :
    FailClosed C old s where
  after := List.pairwise_of_forall_mem_list fun x hx _ _ hr => absurd ⟨x, hx, hr⟩ h
  cipher hr := absurd hr h
  noEcho hr := absurd hr h

/-- A rejection is in the extended log if it was there before or is the
statement just executed. -/
theorem rejected_append {s t : Call Byte Digest (ClientPc Byte Secret Digest)}
    {x : ClientPc Byte Secret Digest × Deed Byte Digest} (hlog : t.log = s.log ++ [x]) :
    Rejected C t ↔ Rejected C s ∨ rejects C x = true := by
  simp [Rejected, hlog, or_and_right, exists_or]

/-- A harmless statement keeps a session closed; if it is itself the
rejection, nothing may have been installed or echoed before it. -/
theorem FailClosed.append {old : Option (AES256 Byte Digest)}
    {s t : Call Byte Digest (ClientPc Byte Secret Digest)}
    {x : ClientPc Byte Secret Digest × Deed Byte Digest} (h : FailClosed C old s)
    (hlog : t.log = s.log ++ [x]) (hcipher : t.cipher = s.cipher) (hx : harmless x = true)
    (hfresh : rejects C x = true → s.cipher = old ∧ NoEcho s) : FailClosed C old t := by
  have hsent : t.sent = s.sent := by
    simp only [harmless, Bool.and_eq_true, Option.isNone_iff_eq_none] at hx
    simp [Call.sent, hlog, hx.1.2]
  refine ⟨?_, fun hr => ?_, fun hr => ?_⟩
  · simpa [hlog, List.pairwise_append, h.after] using fun _ _ _ _ => hx
  · rw [hcipher]
    rcases (rejected_append hlog).mp hr with hs | hs
    · exact h.cipher hs
    · exact (hfresh hs).1
  · rw [NoEcho, hsent]
    rcases (rejected_append hlog).mp hr with hs | hs
    · exact h.noEcho hs
    · exact (hfresh hs).2

/-! ## The run -/

/-- Before the verdict: no rejection, and the session is as it was found. -/
structure Fresh (C : Crypto Byte Secret Seed Digest) (old : Option (AES256 Byte Digest))
    (s : Call Byte Digest (ClientPc Byte Secret Digest)) : Prop where
  notRejected : ¬ Rejected C s
  cipher : s.cipher = old
  noEcho : NoEcho s

/-- What holds at each control point of a run with the secret `dh` that
receives `r`. From `getSharedSecret` on, a run goes on only when nothing was
rejected. -/
def Stage (C : Crypto Byte Secret Seed Digest) (dh : Secret)
    (r : DHKeyExchangeResponsePacket Byte) (old : Option (AES256 Byte Digest))
    (s : Call Byte Digest (ClientPc Byte Secret Digest)) : ClientPc Byte Secret Digest → Prop
  | .getPublicKey dh' => dh' = dh ∧ Fresh C old s
  | .sendRequest dh' _ => dh' = dh ∧ Fresh C old s
  | .awaitResponse dh' => dh' = dh ∧ Fresh C old s
  | .verifyHash dh' r' => dh' = dh ∧ r' = r ∧ Fresh C old s
  | .getSharedSecret dh' r' =>
      dh' = dh ∧ r' = r ∧ FailClosed C old s ∧
        (C.verifyHash (r.getHash C) r.signature = true → ¬ Rejected C s)
  | _ => ¬ Rejected C s

/-- The invariant of the runs. -/
def OnRun (C : Crypto Byte Secret Seed Digest) (dh : Secret)
    (r : DHKeyExchangeResponsePacket Byte) (old : Option (AES256 Byte Digest))
    (s : Call Byte Digest (ClientPc Byte Secret Digest)) : Prop :=
  match s.progress with
  | .running pc => Stage C dh r old s pc
  | _ => FailClosed C old s

variable {dh : Secret} {r : DHKeyExchangeResponsePacket Byte} {old : Option (AES256 Byte Digest)}
  {s t : Call Byte Digest (ClientPc Byte Secret Digest)} {pc : ClientPc Byte Secret Digest}

theorem Fresh.failClosed (h : Fresh C old s) : FailClosed C old s :=
  .of_not_rejected h.notRejected

/-- Every stage is fail-closed, and `verify_hash` runs on a fresh session. -/
theorem Stage.failClosed (h : Stage C dh r old s pc) :
    FailClosed C old s ∧ (∀ deed, rejects C (pc, deed) = true → s.cipher = old ∧ NoEcho s) := by
  cases pc with
  | getPublicKey dh' => exact ⟨h.2.failClosed, fun _ hr => by cases hr⟩
  | sendRequest dh' p => exact ⟨h.2.failClosed, fun _ hr => by cases hr⟩
  | awaitResponse dh' => exact ⟨h.2.failClosed, fun _ hr => by cases hr⟩
  | verifyHash dh' r' => exact ⟨h.2.2.failClosed, fun _ _ => ⟨h.2.2.cipher, h.2.2.noEcho⟩⟩
  | getSharedSecret dh' r' => exact ⟨h.2.2.1, fun _ hr => by cases hr⟩
  | _ => exact ⟨.of_not_rejected h, fun _ hr => by cases hr⟩

/-- A statement that ended the call did no harm. -/
theorem harmless_failed : harmless (pc, (.failed : Deed Byte Digest)) = true := by
  cases pc <;> rfl

/-- An exception at any control point leaves a closed session. -/
theorem Stage.abort (h : Stage C dh r old s pc) (p : Progress (ClientPc Byte Secret Digest)) :
    FailClosed C old (s.abort pc p) :=
  h.failClosed.1.append rfl rfl harmless_failed (h.failClosed.2 _)

/-- A statement that is not a rejection adds none. -/
theorem not_rejected_advance {deed : Deed Byte Digest} {next : Option (ClientPc Byte Secret Digest)}
    (h : ¬ Rejected C s) (hx : rejects C (pc, deed) = false) :
    ¬ Rejected C (s.advance pc deed next) := by
  rw [rejected_append (s.advance_log pc deed next), hx]
  simpa using h

/-- Before the verdict, a statement that sends at most a part of the
exchange leaves the session fresh. -/
theorem Fresh.advance {deed : Deed Byte Digest} {next : Option (ClientPc Byte Secret Digest)}
    (h : Fresh C old s) (hx : rejects C (pc, deed) = false)
    (hp : ∀ p ∈ deed.packet?, p.isEcho = false) : Fresh C old (s.advance pc deed next) where
  notRejected := not_rejected_advance h.notRejected hx
  cipher := h.cipher
  noEcho := by
    intro p hmem
    rw [Call.sent_advance, List.mem_append, Option.mem_toList] at hmem
    exact hmem.elim (h.noEcho p) (hp p)

/-- `verify_hash` accepts the response, or its key makes `get_shared_secret`
throw. -/
def AcceptedOrMalformed (C : Crypto Byte Secret Seed Digest) (dh : Secret)
    (r : DHKeyExchangeResponsePacket Byte) : Prop :=
  C.verifyHash (r.getHash C) r.signature = true ∨ C.getSharedSecret dh r.publicKey = none

/-- The statement at a stage leads to the next stage. -/
theorem Stage.perform {a : CallAction Byte} (hr : AcceptedOrMalformed C dh r)
    (h : Stage C dh r old s pc) (ha : Receives r s a)
    (hs : s.perform pc (clientStmt C pc) a = some t) : OnRun C dh r old t := by
  cases pc with
  | getPublicKey dh' =>
      cases a <;> cases hs
      exact ⟨h.1, h.2.advance rfl (by simp [Deed.packet?])⟩
  | sendRequest dh' p =>
      cases a <;> cases hs
      exact ⟨h.1, h.2.advance rfl (by simp [Deed.packet?, Packet.isEcho])⟩
  | awaitResponse dh' =>
      cases a with
      | receive r' =>
          cases hs
          exact ⟨h.1, ha r' rfl, h.2.advance rfl (by simp [Deed.packet?])⟩
      | _ => cases hs
  | verifyHash dh' r' =>
      obtain ⟨rfl, rfl, hfresh⟩ := h
      cases hv : C.verifyHash (r'.getHash C) r'.signature with
      | true =>
          simp only [clientStmt, hv, if_true] at hs
          cases a <;> cases hs
          have hnot : ¬ Rejected C (s.advance (.verifyHash dh' r') .nothing
              (some (.getSharedSecret dh' r'))) :=
            not_rejected_advance hfresh.notRejected (by simp [rejects, hv])
          exact ⟨rfl, rfl, .of_not_rejected hnot, fun _ => hnot⟩
      | false =>
          simp only [clientStmt, hv, Bool.false_eq_true, if_false] at hs
          cases a <;> cases hs
          exact ⟨rfl, rfl, hfresh.failClosed.append rfl rfl rfl fun _ => ⟨hfresh.cipher, hfresh.noEcho⟩,
            fun hacc => absurd hacc (by simp [hv])⟩
  | getSharedSecret dh' r' =>
      obtain ⟨rfl, rfl, hclosed, haccepted⟩ := id h
      cases hk : C.getSharedSecret dh' r'.publicKey with
      | none =>
          simp only [clientStmt, hk] at hs
          cases a <;> cases hs
          exact h.abort _
      | some sharedSecret =>
          -- the branch that goes on is taken only when the response was accepted
          have hacc := hr.resolve_right (by simp [hk])
          simp only [clientStmt, hk] at hs
          cases a <;> cases hs
          exact not_rejected_advance (haccepted hacc) rfl
  | appendSalt r' sharedSecret => cases a <;> cases hs; exact not_rejected_advance h rfl
  | computeHash r' sharedSecret => cases a <;> cases hs; exact not_rejected_advance h rfl
  | makeCipher r' sharedKey => cases a <;> cases hs; exact not_rejected_advance h rfl
  | setupEncryption e =>
      cases a <;> cases hs
      exact not_rejected_advance (s := { s with cipher := some e }) h rfl
  | sendEcho =>
      cases a <;> cases hs
      exact .of_not_rejected (not_rejected_advance h rfl)

/-- The coroutine of a client with the secret `dh`, on a session with the
cipher `old`. -/
def coroutine (C : Crypto Byte Secret Seed Digest) (dh : Secret)
    (old : Option (AES256 Byte Digest)) :
    Machine (Call Byte Digest (ClientPc Byte Secret Digest)) (CallAction Byte) :=
  calling (clientStmt C) (.getPublicKey dh) old

theorem onRun_of_reach (hr : AcceptedOrMalformed C dh r)
    (h : (coroutine C dh old).Reach (Receives r) s) : OnRun C dh r old s := by
  refine h.invariant ?_ ?_
  · rintro s rfl
    have hnot : ¬ Rejected C (Call.entered (ClientPc.getPublicKey dh) old) := by
      rintro ⟨x, hx, -⟩
      cases hx
    exact ⟨rfl, hnot, rfl, fun p hp => by cases hp⟩
  · intro s a t hs ha hstep
    obtain ⟨pc, hpc, ⟨-, rfl⟩ | ⟨-, hperform⟩⟩ := Call.step_cases hstep
    · rw [OnRun, hpc] at hs
      exact hs.abort _
    · rw [OnRun, hpc] at hs
      exact hs.perform hr ha hperform

theorem OnRun.failClosed (h : OnRun C dh r old s) : FailClosed C old s := by
  unfold OnRun at h
  split at h
  · exact h.failClosed.1
  · exact h

/-! ## The branch without `co_return` -/

/-- A schedule that delivers `r` and lets no statement throw. -/
def scheduleOf (r : DHKeyExchangeResponsePacket Byte) (n : Nat) : List (CallAction Byte) :=
  [.run, .run, .receive r] ++ List.replicate n .run

theorem meets_scheduleOf (r : DHKeyExchangeResponsePacket Byte) (n : Nat)
    (s : Call Byte Digest (ClientPc Byte Secret Digest)) :
    (coroutine C dh old).Meets (Receives r) s (scheduleOf r n) := by
  refine Machine.Meets.of_forall (fun s a ha r' hr' => ?_) s
  subst hr'
  simpa [scheduleOf] using ha

/-- A rejected response with a well-formed key: the shared secret is derived
right after `Destroy`. -/
theorem derives_after_rejection (old : Option (AES256 Byte Digest)) {sharedSecret : List Byte}
    (hv : C.verifyHash (r.getHash C) r.signature = false)
    (hk : C.getSharedSecret dh r.publicKey = some sharedSecret) :
    ∃ s, (coroutine C dh old).Reach (Receives r) s ∧ ¬ FailClosed C old s := by
  let p : DHKeyExchangeRequestPacket Byte := ⟨C.getPublicKey dh⟩
  let s : Call Byte Digest (ClientPc Byte Secret Digest) :=
    { progress := .running (.appendSalt r sharedSecret)
      cipher := old
      log := [(.getPublicKey dh, .nothing), (.sendRequest dh p, .sent (.request p)),
        (.awaitResponse dh, .nothing), (.verifyHash dh r, .destroyed),
        (.getSharedSecret dh r, .nothing)] }
  have hrun : (coroutine C dh old).run (.entered (.getPublicKey dh) old) (scheduleOf r 2) = some s := by
    simp [Machine.run, scheduleOf, coroutine, calling, Call.step, Call.perform, Call.entered,
      Call.advance, clientStmt, hv, hk, List.replicate, s, p]
  refine ⟨s, Machine.Reach.run (.start rfl) (meets_scheduleOf r 2 _) hrun, fun hclosed => ?_⟩
  -- the last two entries of the log are the rejection and the derivation
  have hafter := hclosed.after
  simp [s, rejects, hv, harmless, derives] at hafter

/-- Over every run that receives `r`, whichever statement throws, the
coroutine is fail-closed if and only if `verify_hash` accepts `r` or
`get_shared_secret` throws on its key. -/
theorem failClosed_iff (C : Crypto Byte Secret Seed Digest) (dh : Secret)
    (old : Option (AES256 Byte Digest)) (r : DHKeyExchangeResponsePacket Byte) :
    (∀ s, (coroutine C dh old).Reach (Receives r) s → FailClosed C old s) ↔
      AcceptedOrMalformed C dh r := by
  constructor
  · intro h
    by_contra hnot
    simp only [AcceptedOrMalformed, not_or, Bool.not_eq_true] at hnot
    obtain ⟨sharedSecret, hk⟩ := Option.ne_none_iff_exists'.mp hnot.2
    obtain ⟨s, hs, hopen⟩ := derives_after_rejection old hnot.1 hk
    exact hopen (h s hs)
  · exact fun hr s hs => (onRun_of_reach hr hs).failClosed

/-- A response without a signature. -/
def unsignedKey : DHKeyExchangeResponsePacket UInt8 := ⟨[4], [], 20, []⟩

/-- The client rejects it, destroys the session, and then installs a cipher
made from it and sends its echo. -/
theorem echo_after_rejection :
    ∃ s, (coroutine smallCrypto 3 none).Reach (Receives unsignedKey) s ∧
      (s.log.any (rejects smallCrypto) && s.cipher.isSome && s.sent.any Packet.isEcho) = true ∧
      ¬ FailClosed smallCrypto none s := by
  have hstart : (coroutine smallCrypto 3 none).Reach (Receives unsignedKey)
      (.entered (.getPublicKey 3) none) := .start rfl
  obtain ⟨s, hs, hp⟩ := hstart.exists_run (scheduleOf unsignedKey 7)
    (fun s => s.log.any (rejects smallCrypto) && s.cipher.isSome && s.sent.any Packet.isEcho)
    (meets_scheduleOf unsignedKey 7 _) (by decide +kernel)
  refine ⟨s, hs, hp, fun hclosed => ?_⟩
  simp only [Bool.and_eq_true] at hp
  obtain ⟨x, hx, hr⟩ := List.any_eq_true.mp hp.1.1
  rw [hclosed.cipher ⟨x, hx, hr⟩] at hp
  cases hp.1.2

end PacketDistribution.Session
