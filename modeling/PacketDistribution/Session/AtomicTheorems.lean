/-
PacketDistribution.Session.AtomicTheorems — the two effects of
`encryption_handler_server`, the response on the wire and the installed
cipher, when calls of the crypto library and of the session throw.

The handler sends first and constructs the `AES256` object afterwards, so
one of the fallible calls lies between the two effects.

* `atomic_iff`: for every request, every earlier cipher and every set of
  throwing calls, the session is left in one of the two whole states unless
  the constructor of `AES256` is the only call that throws.
-/
import PacketDistribution.Session.Call

namespace PacketDistribution.Session

open PacketDistribution.Lib
open PacketDistribution.Packets

variable {Byte Secret Seed Digest : Type}

/-! ## The fallible calls -/

/-- The calls of `encryption_handler_server` that may throw. `getHash` is
the `ComputeHash` inside `get_hash`, `computeHash` the one over the shared
secret. -/
inductive FallibleCall where
  | getPublicKey
  | getHash
  | signHash
  | getSharedSecret
  | computeHash
  | sendPacket
  | aes256
  deriving DecidableEq

/-- The fallible calls of the statement at a control point. -/
def ServerPc.calls : ServerPc Byte Secret Seed Digest → List FallibleCall
  | .getPublicKey _ => [.getPublicKey]
  | .fillSalt _ _ => []
  | .drawRounds _ _ => []
  | .signHash _ _ => [.getHash, .signHash]
  | .getSharedSecret _ _ => [.getSharedSecret]
  | .appendSalt _ _ => []
  | .computeHash _ _ => [.computeHash]
  | .sendPacket _ _ => [.sendPacket]
  | .makeCipher _ _ => [.aes256]
  | .setupEncryption _ => []

/-- The fallible calls that lie behind a control point. -/
def ServerPc.passed : ServerPc Byte Secret Seed Digest → List FallibleCall
  | .getPublicKey _ => []
  | .fillSalt _ _ => [.getPublicKey]
  | .drawRounds _ _ => [.getPublicKey]
  | .signHash _ _ => [.getPublicKey]
  | .getSharedSecret _ _ => [.getPublicKey, .getHash, .signHash]
  | .appendSalt _ _ => [.getPublicKey, .getHash, .signHash, .getSharedSecret]
  | .computeHash _ _ => [.getPublicKey, .getHash, .signHash, .getSharedSecret]
  | .sendPacket _ _ => [.getPublicKey, .getHash, .signHash, .getSharedSecret, .computeHash]
  | .makeCipher _ _ =>
      [.getPublicKey, .getHash, .signHash, .getSharedSecret, .computeHash, .sendPacket]
  | .setupEncryption _ =>
      [.getPublicKey, .getHash, .signHash, .getSharedSecret, .computeHash, .sendPacket, .aes256]

/-- The statements of the handler that are still to run. -/
def ServerPc.left : ServerPc Byte Secret Seed Digest → Nat
  | .getPublicKey _ => 9
  | .fillSalt _ _ => 8
  | .drawRounds _ _ => 7
  | .signHash _ _ => 6
  | .getSharedSecret _ _ => 5
  | .appendSalt _ _ => 4
  | .computeHash _ _ => 3
  | .sendPacket _ _ => 2
  | .makeCipher _ _ => 1
  | .setupEncryption _ => 0

/-- A statement throws exactly when one of its calls is in `throws`. -/
def Follows (throws : FallibleCall → Bool)
    (s : Call Byte Digest (ServerPc Byte Secret Seed Digest)) (a : CallAction Byte) : Prop :=
  ∀ pc, s.progress = .running pc → (a = .throw ↔ ∃ c ∈ pc.calls, throws c = true)

/-! ## The property -/

variable (C : Crypto Byte Secret Seed Digest) (call : ServerCall Byte Secret Seed)
  (old : Option (AES256 Byte Digest)) (throws : FallibleCall → Bool)

/-- One call of the handler, on a session with the cipher `old`. -/
def handler : Machine (Call Byte Digest (ServerPc Byte Secret Seed Digest)) (CallAction Byte) :=
  calling (serverStmt C) (.getPublicKey call) old

/-- Nothing was sent and the old cipher is in place, or exactly one response
was sent and the cipher derived with its salt and round count is in place. -/
def Atomic (s : Call Byte Digest (ServerPc Byte Secret Seed Digest)) : Prop :=
  (s.sent = [] ∧ s.installed = [] ∧ s.cipher = old) ∨
    ∃ e, serverCipher C call = some e ∧ s.sent = [.response (serverResponse C call.choice)] ∧
      s.installed = [e] ∧ s.cipher = some e

/-- What holds at a control point of a call whose throwing calls are
`throws`. -/
structure Handling (s : Call Byte Digest (ServerPc Byte Secret Seed Digest))
    (pc : ServerPc Byte Secret Seed Digest) : Prop where
  passed : ∀ c ∈ pc.passed, throws c = false
  installed : s.installed = []
  cipher : s.cipher = old
  unsent : pc.sent = false → s.sent = [] ∧
    pc.outcome C = (serverCipher C call).map fun e => (some (serverResponse C call.choice), e)
  sent : pc.sent = true → s.sent = [.response (serverResponse C call.choice)] ∧
    ∃ e, serverCipher C call = some e ∧ pc.outcome C = some (none, e)

/-- The constructor of `AES256` is the only call that throws, on a key from
which a secret can be derived. -/
def OnlyCipherThrows (C : Crypto Byte Secret Seed Digest) (call : ServerCall Byte Secret Seed)
    (throws : FallibleCall → Bool) : Prop :=
  throws .aes256 = true ∧ (∀ c, c ≠ .aes256 → throws c = false) ∧
    (C.getSharedSecret call.choice.dh call.request.publicKey).isSome = true

/-- The states in which a call can end. The first two are the whole ones;
the third is left exactly when the constructor of `AES256` is the only call
that throws. -/
inductive Finished (s : Call Byte Digest (ServerPc Byte Secret Seed Digest)) : Prop where
  | untouched (hsent : s.sent = []) (hinstalled : s.installed = []) (hcipher : s.cipher = old)
      (hbut : ¬ OnlyCipherThrows C call throws)
  | complete (e : AES256 Byte Digest) (he : serverCipher C call = some e)
      (hsent : s.sent = [.response (serverResponse C call.choice)]) (hinstalled : s.installed = [e])
      (hcipher : s.cipher = some e) (hbut : ¬ OnlyCipherThrows C call throws)
  | halfway (hthrew : s.progress = .threw)
      (hsent : s.sent = [.response (serverResponse C call.choice)]) (hinstalled : s.installed = [])
      (hcipher : s.cipher = old) (honly : OnlyCipherThrows C call throws)

/-- The invariant of the runs: the call is at a control point where
`Handling` holds, or it has ended in one of the three states. -/
def HandlingOrFinished (s : Call Byte Digest (ServerPc Byte Secret Seed Digest)) : Prop :=
  (∃ pc, s.progress = .running pc ∧ Handling C call old throws s pc) ∨
    (s.progress.ended = true ∧ Finished C call old throws s)

variable {C call old throws} {s t : Call Byte Digest (ServerPc Byte Secret Seed Digest)}
  {pc next : ServerPc Byte Secret Seed Digest}

/-- A statement puts its own calls behind the next control point. -/
theorem passed_next
    (h : serverStmt C pc = .go next ∨ ∃ p, serverStmt C pc = .sendPacket p (some next)) :
    next.passed = pc.passed ++ pc.calls := by
  cases pc with
  | getSharedSecret call r =>
      cases hk : C.getSharedSecret call.choice.dh call.request.publicKey with
      | none => simp [serverStmt, hk] at h
      | some sharedSecret =>
          obtain rfl : .appendSalt r sharedSecret = next := by simpa [serverStmt, hk] using h
          rfl
  | _ => rcases h with h | ⟨p, h⟩ <;> cases h <;> rfl

/-- A call other than the constructor of `AES256` throws. -/
theorem not_onlyCipherThrows {c : FallibleCall} (hne : c ≠ .aes256) (hthrows : throws c = true) :
    ¬ OnlyCipherThrows C call throws := by
  rintro ⟨-, hother, -⟩
  rw [hother c hne] at hthrows
  cases hthrows

/-- Before `send_packet` the constructor of `AES256` is not called. -/
theorem aes256_not_called (hsent : pc.sent = false) : .aes256 ∉ pc.calls := by
  cases pc with
  | makeCipher r sharedKey => cases hsent
  | setupEncryption e => cases hsent
  | _ => simp [ServerPc.calls]

/-! ## One statement -/

/-- A statement that runs leads to the next control point or ends the call. -/
theorem Handling.run (h : Handling C call old throws s pc) (hcalls : ∀ c ∈ pc.calls, throws c = false)
    (hs : s.perform pc (serverStmt C pc) .run = some t) : HandlingOrFinished C call old throws t := by
  have hpassed : ∀ c ∈ pc.passed ++ pc.calls, throws c = false := by
    intro c hc
    exact (List.mem_append.mp hc).elim (h.passed c) (hcalls c)
  cases hsent : pc.sent with
  | false =>
      obtain ⟨hnone, hout⟩ := h.unsent hsent
      obtain ⟨next, hgo, hns, hkeep⟩ | ⟨r, e, next, hsend, hns, hpred, hrest⟩ | ⟨hfail, hpred⟩ :=
        serverStmt_outcome C hsent
      · rw [hgo] at hs
        cases hs
        exact .inl ⟨next, rfl, by rwa [passed_next (.inl hgo)],
          by simpa [Deed.cipher?] using h.installed, h.cipher,
          fun _ => ⟨by simpa [Deed.packet?] using hnone, hkeep.trans hout⟩,
          fun h' => by rw [hns] at h'; cases h'⟩
      · rw [hsend] at hs
        cases hs
        obtain ⟨e', he', hpair⟩ := Option.map_eq_some_iff.mp (hout.symm.trans hpred)
        cases hpair
        exact .inl ⟨next, rfl, by rwa [passed_next (.inr ⟨_, hsend⟩)],
          by simpa [Deed.cipher?] using h.installed, h.cipher,
          fun h' => (by rw [hns] at h'; cases h'),
          fun _ => ⟨by simp [Deed.packet?, hnone], e, he', hrest⟩⟩
      · -- the request's key is malformed
        rw [hfail] at hs
        cases hs
        refine .inr ⟨rfl, .untouched (by simpa using hnone) (by simpa using h.installed) h.cipher ?_⟩
        rintro ⟨-, -, hsome⟩
        have hcipher : serverCipher C call = none := by simpa using hout.symm.trans hpred
        rw [Option.map_eq_none_iff.mp hcipher] at hsome
        cases hsome
  | true =>
      obtain ⟨hone, e, he, hout⟩ := h.sent hsent
      obtain ⟨next, hgo, hns, hkeep⟩ | hinstall := serverStmt_outcome_sent C hsent hout
      · rw [hgo] at hs
        cases hs
        exact .inl ⟨next, rfl, by rwa [passed_next (.inl hgo)],
          by simpa [Deed.cipher?] using h.installed, h.cipher,
          fun h' => (by rw [hns] at h'; cases h'),
          fun _ => ⟨by simpa [Deed.packet?] using hone, e, he, hkeep⟩⟩
      · -- the constructor has returned
        have haes : throws .aes256 = false := by
          cases pc with
          | setupEncryption e => exact h.passed _ (by simp [ServerPc.passed])
          | makeCipher r sharedKey => cases hinstall
          | _ => cases hsent
        rw [hinstall] at hs
        cases hs
        have hinstalled : Call.installed { s with cipher := some e } = [] := h.installed
        have hsent' : Call.sent { s with cipher := some e } = [.response (serverResponse C call.choice)] :=
          hone
        refine .inr ⟨rfl, .complete e he (by simp [Deed.packet?, hsent'])
          (by simp [Deed.cipher?, hinstalled]) rfl ?_⟩
        rintro ⟨hthrows, -, -⟩
        rw [haes] at hthrows
        cases hthrows

/-- A statement that throws leaves the session as it was found, unless it is
the constructor of `AES256`. -/
theorem Handling.throw (h : Handling C call old throws s pc)
    (hcalls : ∃ c ∈ pc.calls, throws c = true) :
    Finished C call old throws (s.abort pc .threw) := by
  obtain ⟨c, hc, hthrows⟩ := hcalls
  cases hsent : pc.sent with
  | false =>
      have hne : c ≠ .aes256 := by
        rintro rfl
        exact aes256_not_called hsent hc
      exact .untouched (by simpa using (h.unsent hsent).1) (by simpa using h.installed) h.cipher
        (not_onlyCipherThrows hne hthrows)
  | true =>
      -- the only fallible call after `send_packet`
      obtain ⟨hone, e, he, -⟩ := h.sent hsent
      cases pc with
      | makeCipher r sharedKey =>
          rw [List.mem_singleton.mp hc] at hthrows
          refine .halfway rfl (by simpa using hone) (by simpa using h.installed) h.cipher
            ⟨hthrows, fun c hne => h.passed c ?_, ?_⟩
          · cases c with
            | aes256 => exact absurd rfl hne
            | _ => simp [ServerPc.passed]
          · obtain ⟨sharedSecret, hk, -⟩ := Option.map_eq_some_iff.mp he
            rw [hk]
            rfl
      | setupEncryption e => cases hc
      | _ => cases hsent

/-! ## The run -/

theorem descends (pc : ServerPc Byte Secret Seed Digest) :
    (serverStmt C pc).Descends ServerPc.left pc.left := by
  cases pc with
  | getSharedSecret call r =>
      cases hk : C.getSharedSecret call.choice.dh call.request.publicKey with
      | none => simp [serverStmt, hk, Effect.Descends]
      | some sharedSecret => simp [serverStmt, hk, Effect.Descends, ServerPc.left]
  | _ => simp [serverStmt, Effect.Descends, ServerPc.left]

/-- At every statement the schedule lets the call go on. -/
theorem follows_run_or_throw (s : Call Byte Digest (ServerPc Byte Secret Seed Digest))
    (pc : ServerPc Byte Secret Seed Digest) (hpc : s.progress = .running pc) :
    Follows throws s .run ∨ Follows throws s .throw := by
  by_cases hcalls : ∃ c ∈ pc.calls, throws c = true
  · refine .inr fun pc' hpc' => ?_
    cases hpc.symm.trans hpc'
    simpa using hcalls
  · refine .inl fun pc' hpc' => ?_
    cases hpc.symm.trans hpc'
    simpa using hcalls

theorem handlingOrFinished_of_reach (h : (handler C call old).Reach (Follows throws) s) :
    HandlingOrFinished C call old throws s := by
  refine h.invariant ?_ ?_
  · rintro s rfl
    refine .inl ⟨.getPublicKey call, rfl, ?_, rfl, rfl, fun _ => ⟨rfl, rfl⟩, ?_⟩
    · intro c hc
      cases hc
    · intro hsent
      cases hsent
  · intro s a t hs ha hstep
    obtain ⟨pc, hpc, hcase⟩ := Call.step_cases hstep
    obtain ⟨pc', hpc', hhandling⟩ | ⟨hended, -⟩ := hs
    · cases hpc.symm.trans hpc'
      obtain ⟨rfl, rfl⟩ | ⟨hne, hperform⟩ := hcase
      · exact .inr ⟨rfl, hhandling.throw ((ha pc hpc).mp rfl)⟩
      · have hcalls : ∀ c ∈ pc.calls, throws c = false := by
          intro c hc
          rw [Bool.eq_false_iff]
          exact fun hthrows => hne ((ha pc hpc).mpr ⟨c, hc, hthrows⟩)
        cases a with
        | run => exact hhandling.run hcalls hperform
        | throw => exact absurd rfl hne
        | receive r =>
            rw [Call.perform_receive (descends pc)] at hperform
            cases hperform
    · rw [hpc] at hended
      cases hended

/-- Every call that is over has ended in one of the three states. -/
theorem finished_of_ended (h : (handler C call old).Reach (Follows throws) s)
    (hended : s.progress.ended = true) : Finished C call old throws s := by
  obtain ⟨pc, hpc, -⟩ | ⟨-, hfinished⟩ := handlingOrFinished_of_reach h
  · rw [hpc] at hended
    cases hended
  · exact hfinished

/-- The call ends, whatever throws. -/
theorem exists_finished (C : Crypto Byte Secret Seed Digest) (call : ServerCall Byte Secret Seed)
    (old : Option (AES256 Byte Digest)) (throws : FallibleCall → Bool) :
    ∃ s, (handler C call old).Reach (Follows throws) s ∧ s.progress.ended = true :=
  Call.exists_ended ServerPc.left descends follows_run_or_throw

/-- A response without an installed cipher is neither of the whole states. -/
theorem not_atomic {p : Packet Byte} (hsent : s.sent = [p]) (hinstalled : s.installed = []) :
    ¬ Atomic C call old s := by
  rintro (⟨hnone, -⟩ | ⟨e, -, -, hone, -⟩)
  · simp [hsent] at hnone
  · simp [hinstalled] at hone

/-- For every request, every earlier cipher and every set of throwing calls:
the call ends, and it leaves the session in one of the two whole states
unless the constructor of `AES256` is the only call that throws and the
request's key is well formed. -/
theorem atomic_iff (C : Crypto Byte Secret Seed Digest) (call : ServerCall Byte Secret Seed)
    (old : Option (AES256 Byte Digest)) (throws : FallibleCall → Bool) :
    ((∃ s, (handler C call old).Reach (Follows throws) s ∧ s.progress.ended = true) ∧
      ∀ s, (handler C call old).Reach (Follows throws) s → s.progress.ended = true →
        Atomic C call old s) ↔
      ¬ OnlyCipherThrows C call throws := by
  constructor
  · rintro ⟨⟨s, hs, hended⟩, h⟩
    cases finished_of_ended hs hended with
    | untouched _ _ _ hbut => exact hbut
    | complete _ _ _ _ _ hbut => exact hbut
    | halfway _ hsent hinstalled _ _ => exact absurd (h s hs hended) (not_atomic hsent hinstalled)
  · intro hbut
    refine ⟨exists_finished C call old throws, fun s hs hended => ?_⟩
    cases finished_of_ended hs hended with
    | untouched hsent hinstalled hcipher _ => exact .inl ⟨hsent, hinstalled, hcipher⟩
    | complete e he hsent hinstalled hcipher _ => exact .inr ⟨e, he, hsent, hinstalled, hcipher⟩
    | halfway _ _ _ _ honly => exact absurd honly hbut

/-- A request with the key of a client whose secret is 3. -/
def exampleCall : ServerCall UInt8 Nat Unit :=
  ⟨⟨smallCrypto.getPublicKey 3⟩, .ofDraw 4 [31, 32, 33, 34, 35, 36, 37, 38] rfl 2 ()⟩

/-- The constructor throws: the response is sent, and the session is still in
plaintext. -/
theorem response_without_cipher :
    ∃ s, (handler smallCrypto exampleCall none).Reach (Follows (· == .aes256)) s ∧
      s.progress = .threw ∧ s.sent = [.response (serverResponse smallCrypto exampleCall.choice)] ∧
      s.cipher = none ∧ ¬ Atomic smallCrypto exampleCall none s := by
  have honly : OnlyCipherThrows smallCrypto exampleCall (· == .aes256) :=
    ⟨rfl, fun c hc => by simpa using hc, by decide⟩
  obtain ⟨s, hs, hended⟩ := exists_finished smallCrypto exampleCall none (· == .aes256)
  cases finished_of_ended hs hended with
  | untouched _ _ _ hbut => exact absurd honly hbut
  | complete _ _ _ _ _ hbut => exact absurd honly hbut
  | halfway hthrew hsent hinstalled hcipher _ =>
      exact ⟨s, hs, hthrew, hsent, hcipher, not_atomic hsent hinstalled⟩

end PacketDistribution.Session
