/-
PacketDistribution.Session.Call — one call alone on a session, as a machine.

`Session.Connection` runs the calls of two honest ends together. Here a
single call (the client's coroutine, the server's handler or
`process_echo`) runs by itself, in an environment that may answer an
`await_packet` with any response whatever and may let any statement throw.

The log records every statement that was executed together with what it did
to the session; `Call.sent` and `Call.installed` read it.
-/
import PacketDistribution.Lib.Machine
import PacketDistribution.Session.KeyExchange

namespace PacketDistribution.Session

open PacketDistribution.Lib
open PacketDistribution.Packets

variable {Byte Digest Pc : Type}

/-- How far a call has come. -/
inductive Progress (Pc : Type) where
  | running (pc : Pc)
  | returned
  /-- an exception the statement itself raises, or undefined behaviour -/
  | failed (e : Failure)
  /-- an exception of the environment's choice -/
  | threw
  deriving DecidableEq

/-- The call is over. -/
def Progress.ended : Progress Pc → Bool
  | .running _ => false
  | _ => true

/-- What a statement did to the session. -/
inductive Deed (Byte Digest : Type) where
  | nothing
  | sent (p : Packet Byte)
  | installed (e : AES256 Byte Digest)
  | destroyed
  /-- it ended the call by an exception, or it is undefined -/
  | failed
  deriving DecidableEq

/-- The packet a statement sent. -/
def Deed.packet? : Deed Byte Digest → Option (Packet Byte)
  | .sent p => some p
  | _ => none

/-- The cipher a statement installed. -/
def Deed.cipher? : Deed Byte Digest → Option (AES256 Byte Digest)
  | .installed e => some e
  | _ => none

/-- One call and the cipher of its session. -/
structure Call (Byte Digest Pc : Type) where
  progress : Progress Pc
  cipher : Option (AES256 Byte Digest)
  log : List (Pc × Deed Byte Digest)

namespace Call

/-- A call at its first statement, on a session with the cipher `old`. -/
def entered (pc : Pc) (old : Option (AES256 Byte Digest)) : Call Byte Digest Pc :=
  ⟨.running pc, old, []⟩

/-- The packets the call sent. -/
def sent (s : Call Byte Digest Pc) : List (Packet Byte) :=
  s.log.filterMap fun x => x.2.packet?

/-- The ciphers the call installed. -/
def installed (s : Call Byte Digest Pc) : List (AES256 Byte Digest) :=
  s.log.filterMap fun x => x.2.cipher?

/-- The statement at `pc` is done; `next` is `none` when the call returns. -/
def advance (s : Call Byte Digest Pc) (pc : Pc) (deed : Deed Byte Digest) (next : Option Pc) :
    Call Byte Digest Pc :=
  { s with
    progress := match next with
      | some pc' => .running pc'
      | none => .returned
    log := s.log ++ [(pc, deed)] }

/-- The statement at `pc` ended the call. -/
def abort (s : Call Byte Digest Pc) (pc : Pc) (p : Progress Pc) : Call Byte Digest Pc :=
  { s with progress := p, log := s.log ++ [(pc, .failed)] }

end Call

/-- One step of a call: its next statement runs, the response it awaits
arrives, or its next statement throws. -/
inductive CallAction (Byte : Type) where
  | run
  | receive (r : DHKeyExchangeResponsePacket Byte)
  | throw
  deriving DecidableEq

/-- Carry out the effect of the statement at `pc`. -/
def Call.perform (s : Call Byte Digest Pc) (pc : Pc) :
    Effect Byte Digest Pc → CallAction Byte → Option (Call Byte Digest Pc)
  | .go next, .run => some (s.advance pc .nothing (some next))
  | .sendPacket p next, .run => some (s.advance pc (.sent p) next)
  | .setupEncryption e next, .run =>
      some ({ s with cipher := some e }.advance pc (.installed e) next)
  | .destroy next, .run => some (s.advance pc .destroyed (some next))
  | .awaitPacket next, .receive r => some (s.advance pc .nothing (some (next r)))
  | .fail e, .run => some (s.abort pc (.failed e))
  | _, _ => none

/-- The step function of a call with the statements `stmt`. A statement that
throws has done nothing to the session. -/
def Call.step (stmt : Pc → Effect Byte Digest Pc) (s : Call Byte Digest Pc)
    (a : CallAction Byte) : Option (Call Byte Digest Pc) :=
  match s.progress, a with
  | .running pc, .throw => some (s.abort pc .threw)
  | .running pc, a => s.perform pc (stmt pc) a
  | _, _ => none

/-- The machine of a call with the statements `stmt` that starts at `pc`, on
a session with the cipher `old`. -/
def calling (stmt : Pc → Effect Byte Digest Pc) (pc : Pc)
    (old : Option (AES256 Byte Digest)) :
    Machine (Call Byte Digest Pc) (CallAction Byte) where
  init s := s = Call.entered pc old
  step := Call.step stmt

/-! ## What a step does -/

namespace Call

@[simp] theorem entered_progress (pc : Pc) (old : Option (AES256 Byte Digest)) :
    (entered pc old).progress = .running pc := rfl

@[simp] theorem entered_cipher (pc : Pc) (old : Option (AES256 Byte Digest)) :
    (entered pc old).cipher = old := rfl

@[simp] theorem sent_entered (pc : Pc) (old : Option (AES256 Byte Digest)) :
    (entered pc old).sent = [] := rfl

@[simp] theorem installed_entered (pc : Pc) (old : Option (AES256 Byte Digest)) :
    (entered pc old).installed = [] := rfl

@[simp] theorem advance_log (s : Call Byte Digest Pc) (pc : Pc) (deed : Deed Byte Digest)
    (next : Option Pc) : (s.advance pc deed next).log = s.log ++ [(pc, deed)] := rfl

@[simp] theorem advance_cipher (s : Call Byte Digest Pc) (pc : Pc) (deed : Deed Byte Digest)
    (next : Option Pc) : (s.advance pc deed next).cipher = s.cipher := rfl

@[simp] theorem advance_progress_some (s : Call Byte Digest Pc) (pc next : Pc)
    (deed : Deed Byte Digest) : (s.advance pc deed (some next)).progress = .running next := rfl

@[simp] theorem advance_progress_none (s : Call Byte Digest Pc) (pc : Pc)
    (deed : Deed Byte Digest) : (s.advance pc deed none).progress = .returned := rfl

@[simp] theorem abort_log (s : Call Byte Digest Pc) (pc : Pc) (p : Progress Pc) :
    (s.abort pc p).log = s.log ++ [(pc, .failed)] := rfl

@[simp] theorem abort_cipher (s : Call Byte Digest Pc) (pc : Pc) (p : Progress Pc) :
    (s.abort pc p).cipher = s.cipher := rfl

@[simp] theorem abort_progress (s : Call Byte Digest Pc) (pc : Pc) (p : Progress Pc) :
    (s.abort pc p).progress = p := rfl

@[simp] theorem sent_advance (s : Call Byte Digest Pc) (pc : Pc) (deed : Deed Byte Digest)
    (next : Option Pc) : (s.advance pc deed next).sent = s.sent ++ deed.packet?.toList := by
  cases deed <;> simp [sent, Deed.packet?]

@[simp] theorem installed_advance (s : Call Byte Digest Pc) (pc : Pc) (deed : Deed Byte Digest)
    (next : Option Pc) :
    (s.advance pc deed next).installed = s.installed ++ deed.cipher?.toList := by
  cases deed <;> simp [installed, Deed.cipher?]

@[simp] theorem sent_abort (s : Call Byte Digest Pc) (pc : Pc) (p : Progress Pc) :
    (s.abort pc p).sent = s.sent := by
  simp [sent, Deed.packet?]

@[simp] theorem installed_abort (s : Call Byte Digest Pc) (pc : Pc) (p : Progress Pc) :
    (s.abort pc p).installed = s.installed := by
  simp [installed, Deed.cipher?]

/-- Everything a step can be: a throw, or the effect of the statement at the
call's control point. -/
theorem step_cases {stmt : Pc → Effect Byte Digest Pc} {s t : Call Byte Digest Pc}
    {a : CallAction Byte} (h : Call.step stmt s a = some t) :
    ∃ pc, s.progress = .running pc ∧
      ((a = .throw ∧ t = s.abort pc .threw) ∨ (a ≠ .throw ∧ s.perform pc (stmt pc) a = some t)) := by
  unfold Call.step at h
  cases hp : s.progress with
  | running pc =>
      rw [hp] at h
      refine ⟨pc, rfl, ?_⟩
      cases a with
      | throw => exact .inl ⟨rfl, (Option.some.inj h).symm⟩
      | run => exact .inr ⟨by simp, h⟩
      | receive r => exact .inr ⟨by simp, h⟩
  | returned => rw [hp] at h; cases h
  | failed e => rw [hp] at h; cases h
  | threw => rw [hp] at h; cases h

end Call

/-! ## Calls that end -/

/-- The statement awaits nothing, and the control point after it is below
`n` in the measure `left`. -/
def Effect.Descends (left : Pc → Nat) (n : Nat) : Effect Byte Digest Pc → Prop
  | .go next => left next < n
  | .sendPacket _ next => ∀ pc ∈ next, left pc < n
  | .setupEncryption _ next => ∀ pc ∈ next, left pc < n
  | .destroy next => left next < n
  | .awaitPacket _ => False
  | .fail _ => True

/-- A statement that awaits nothing receives nothing. -/
theorem Call.perform_receive {eff : Effect Byte Digest Pc} {left : Pc → Nat} {n : Nat}
    (h : eff.Descends left n) (s : Call Byte Digest Pc) (pc : Pc)
    (r : DHKeyExchangeResponsePacket Byte) : s.perform pc eff (.receive r) = none := by
  cases eff with
  | awaitPacket next => cases h
  | _ => rfl

/-- A statement that descends can run, and ends the call or goes down. -/
theorem Call.run_descends {stmt : Pc → Effect Byte Digest Pc} {left : Pc → Nat} {n : Nat}
    {s : Call Byte Digest Pc} {pc : Pc} (hpc : s.progress = .running pc)
    (h : (stmt pc).Descends left n) :
    ∃ t, Call.step stmt s .run = some t ∧ ∀ pc', t.progress = .running pc' → left pc' < n := by
  have hstep : Call.step stmt s .run = s.perform pc (stmt pc) .run := by
    simp [Call.step, hpc]
  rw [hstep]
  cases he : stmt pc with
  | go next =>
      rw [he] at h
      exact ⟨_, rfl, fun pc' heq => by cases heq; exact h⟩
  | sendPacket p next =>
      rw [he] at h
      refine ⟨_, rfl, fun pc' heq => ?_⟩
      cases next <;> cases heq
      exact h _ rfl
  | setupEncryption e next =>
      rw [he] at h
      refine ⟨_, rfl, fun pc' heq => ?_⟩
      cases next <;> cases heq
      exact h _ rfl
  | destroy next =>
      rw [he] at h
      exact ⟨_, rfl, fun pc' heq => by cases heq; exact h⟩
  | awaitPacket next => rw [he] at h; cases h
  | fail e => exact ⟨_, rfl, fun pc' heq => by cases heq⟩

/-- A call whose statements descend in a measure ends, whatever the schedule
prescribes at each statement. -/
theorem Call.exists_ended {stmt : Pc → Effect Byte Digest Pc} {pc₀ : Pc}
    {old : Option (AES256 Byte Digest)} {ok : Call Byte Digest Pc → CallAction Byte → Prop}
    (left : Pc → Nat) (hstmt : ∀ pc, (stmt pc).Descends left (left pc))
    (hok : ∀ s pc, s.progress = .running pc → ok s .run ∨ ok s .throw) :
    ∃ s, (calling stmt pc₀ old).Reach ok s ∧ s.progress.ended = true := by
  have descend : ∀ n s pc, (calling stmt pc₀ old).Reach ok s → s.progress = .running pc →
      left pc < n → ∃ t, (calling stmt pc₀ old).Reach ok t ∧ t.progress.ended = true := by
    intro n
    induction n with
    | zero => intro s pc _ _ hlt; omega
    | succ n ih =>
        intro s pc hs hpc hlt
        rcases hok s pc hpc with hrun | hthrow
        · obtain ⟨t, ht, hleft⟩ := Call.run_descends hpc (hstmt pc)
          have hreach := hs.next hrun ht
          cases hp : t.progress with
          | running pc' => exact ih t pc' hreach hp (by have := hleft pc' hp; omega)
          | _ => exact ⟨t, hreach, by rw [hp]; rfl⟩
        · have ht : Call.step stmt s .throw = some (s.abort pc .threw) := by simp [Call.step, hpc]
          exact ⟨_, hs.next hthrow ht, rfl⟩
  exact descend (left pc₀ + 1) _ pc₀ (.start rfl) rfl (by omega)

end PacketDistribution.Session
