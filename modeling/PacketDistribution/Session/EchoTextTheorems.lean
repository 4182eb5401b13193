/-
PacketDistribution.Session.EchoTextTheorems — one call of `process_echo` on
an arbitrary text.

The handler is registered before any handshake, so the text is the peer's
choice. It goes to `std::stoi` unguarded, and the result to a signed
addition.

* `answers_iff`: the handler returns and answers as it should exactly on the
  texts that begin with a numeral of an `int` below the largest one.
-/
import PacketDistribution.Session.Call

namespace PacketDistribution.Session

open PacketDistribution.Lib
open PacketDistribution.Packets

variable {Byte Digest : Type}

/-! ## The property -/

/-- One call of `process_echo`, on a session with the cipher `old`. -/
def echoCall (echo : EchoPacket) (old : Option (AES256 Byte Digest)) :
    Machine (Call Byte Digest EchoPc) (CallAction Byte) :=
  calling echoStmt (.answer echo) old

/-- Nothing throws but the statements themselves. -/
def Undisturbed {Pc : Type} (_ : Call Byte Digest Pc) (a : CallAction Byte) : Prop :=
  a = .run

/-- The handler returned, and sent one packet exactly when `stoi` accepts the
text with a value below the largest `int`; the packet's text is read as the
value's successor. -/
structure Answers (text : StdString) (s : Call Byte Digest EchoPc) : Prop where
  returned : s.progress = .returned
  atMostOne : s.sent.length ≤ 1
  sends_iff : s.sent ≠ [] ↔ ∃ v, stoi text = .ok v ∧ v < intMax
  successor : ∀ p ∈ s.sent, ∃ v t, stoi text = .ok v ∧ p = .echo ⟨t⟩ ∧ stoi t = .ok (v + 1)

/-! ## The run -/

/-- The statements of `process_echo` that are still to run. -/
def EchoPc.left : EchoPc → Nat
  | .answer _ => 1
  | .sendPacket _ => 0

theorem echoStmt_descends (pc : EchoPc) :
    (echoStmt pc : Effect Byte Digest EchoPc).Descends EchoPc.left pc.left := by
  cases pc with
  | answer echo =>
      cases hp : processEcho echo with
      | error e => simp [echoStmt, hp, Effect.Descends]
      | ok response => simp [echoStmt, hp, Effect.Descends, EchoPc.left]
  | sendPacket response => simp [echoStmt, Effect.Descends]

variable {echo : EchoPacket} {old : Option (AES256 Byte Digest)} {s : Call Byte Digest EchoPc}

/-- The states of the runs. -/
def Answering (echo : EchoPacket) (s : Call Byte Digest EchoPc) : Prop :=
  match s.progress with
  | .running (.answer echo') => echo' = echo ∧ s.sent = []
  | .running (.sendPacket response) => processEcho echo = .ok response ∧ s.sent = []
  | .returned => ∃ response, processEcho echo = .ok response ∧ s.sent = [.echo response]
  | .failed e => ∃ e', processEcho echo = .error e' ∧ e = .echo e' ∧ s.sent = []
  | .threw => False

theorem answering_of_reach (h : (echoCall echo old).Reach Undisturbed s) : Answering echo s := by
  refine h.invariant ?_ ?_
  · rintro s rfl
    exact ⟨rfl, rfl⟩
  · intro s a t hs ha hstep
    cases ha
    obtain ⟨pc, hpc, ⟨hrun, -⟩ | ⟨-, hperform⟩⟩ := Call.step_cases hstep
    · cases hrun
    · rw [Answering, hpc] at hs
      cases pc with
      | answer echo' =>
          obtain ⟨rfl, hsent⟩ := hs
          cases hp : processEcho echo' with
          | error e =>
              simp only [echoStmt, hp] at hperform
              cases hperform
              exact ⟨e, hp, rfl, by simpa using hsent⟩
          | ok response =>
              simp only [echoStmt, hp] at hperform
              cases hperform
              exact ⟨hp, by simpa [Deed.packet?] using hsent⟩
      | sendPacket response =>
          cases hperform
          exact ⟨response, hs.1, by simp [Deed.packet?, hs.2]⟩

/-! ## The accepted texts -/

/-- A call that has ended returned with a response, or failed without one. -/
theorem Answering.of_ended (h : Answering echo s) (hended : s.progress.ended = true) :
    (∃ response, processEcho echo = .ok response ∧ s.progress = .returned ∧
      s.sent = [.echo response]) ∨
    (∃ e, processEcho echo = .error e ∧ s.progress = .failed (.echo e)) := by
  unfold Answering at h
  cases hp : s.progress with
  | running pc => rw [hp] at hended; cases hended
  | returned =>
      rw [hp] at h
      obtain ⟨response, hok, hsent⟩ := h
      exact .inl ⟨response, hok, rfl, hsent⟩
  | failed e =>
      rw [hp] at h
      obtain ⟨e', herr, rfl, -⟩ := h
      exact .inr ⟨e', herr, rfl⟩
  | threw => rw [hp] at h; cases h

/-- A call that returned with the response to the text answered it. -/
theorem answers_of_sent {text : StdString} {response : EchoPacket}
    (hok : processEcho ⟨text⟩ = .ok response) (hreturned : s.progress = .returned)
    (hsent : s.sent = [.echo response]) : Answers text s := by
  obtain ⟨v, hv, hlt, rfl⟩ := processEcho_eq_ok_iff.mp hok
  have hmin := (stoi_eq_ok_iff.mp hv).2.1
  refine ⟨hreturned, by simp [hsent], ?_, ?_⟩
  · simp only [hsent, ne_eq, reduceCtorEq, not_false_eq_true, true_iff]
    exact ⟨v, hv, hlt⟩
  · intro p hp
    rw [hsent, List.mem_singleton] at hp
    exact ⟨v, _, hv, hp, stoi_toStdString (by omega) (by omega)⟩

/-- On every text: the call ends, and answers as it should, if and only if
the text begins with a numeral of an `int` below the largest one. -/
theorem answers_iff (text : StdString) (old : Option (AES256 Byte Digest)) :
    ((∃ s, (echoCall ⟨text⟩ old).Reach Undisturbed s ∧ s.progress.ended = true) ∧
      ∀ s, (echoCall ⟨text⟩ old).Reach Undisturbed s → s.progress.ended = true →
        Answers text s) ↔
      ∃ v, ReadsAs text v ∧ intMin ≤ v ∧ v < intMax := by
  have hends : ∃ s, (echoCall ⟨text⟩ old).Reach Undisturbed s ∧ s.progress.ended = true :=
    Call.exists_ended EchoPc.left echoStmt_descends fun _ _ _ => .inl rfl
  constructor
  · rintro ⟨-, h⟩
    obtain ⟨s, hs, hended⟩ := hends
    have hanswers := h s hs hended
    obtain ⟨response, hok, -⟩ | ⟨e, -, hfailed⟩ := (answering_of_reach hs).of_ended hended
    · obtain ⟨v, hv, hlt, -⟩ := processEcho_eq_ok_iff.mp hok
      obtain ⟨hreads, hmin, -⟩ := stoi_eq_ok_iff.mp hv
      exact ⟨v, hreads, hmin, hlt⟩
    · rw [hanswers.returned] at hfailed
      cases hfailed
  · rintro ⟨v, hreads, hmin, hlt⟩
    refine ⟨hends, fun s hs hended => ?_⟩
    have hv : stoi text = .ok v := stoi_eq_ok_iff.mpr ⟨hreads, hmin, by omega⟩
    have hok := processEcho_eq_ok_iff.mpr ⟨v, hv, hlt, rfl⟩
    obtain ⟨response, hok', hreturned, hsent⟩ | ⟨e, herr, -⟩ := (answering_of_reach hs).of_ended hended
    · exact answers_of_sent hok' hreturned hsent
    · rw [hok] at herr
      cases herr

/-- On a text without a digit the exception of `std::stoi` leaves the
handler. -/
theorem invalidArgument_leaves :
    ∃ s, (echoCall ⟨['h', 'i']⟩ (none : Option (AES256 UInt8 Digest256))).Reach Undisturbed s ∧
      s.progress = .failed (.echo (.throws .invalidArgument)) ∧ ¬ Answers ['h', 'i'] s := by
  refine ⟨_, .next (.start rfl) rfl rfl, rfl, fun h => ?_⟩
  cases h.returned

end PacketDistribution.Session
