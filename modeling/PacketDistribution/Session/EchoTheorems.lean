/-
PacketDistribution.Session.EchoTheorems — the echoes count.

After the handshake the connection is a rally of one packet whose text goes
up by one at each end. `Counting` is the invariant: the echoes sent so far
are the numerals from `0` on, the last of them is the packet that is under
way, and no call has failed. It holds as long as the text is not the numeral
of `INT_MAX`; nothing in the two programs stops there, and `echo_overflows`
is the run that goes on.
-/
import PacketDistribution.Session.ConnectionTheorems

namespace PacketDistribution.Session

open PacketDistribution.Lib
open PacketDistribution.Packets

variable {Byte Secret Seed Digest : Type}

/-! ## Counting echoes -/

/-- The sender of the `k`-th echo. -/
def echoSender (k : Nat) : End := if k % 2 = 0 then .client else .server

/-- The `k`-th echo and its sender. -/
def echoNumber (k : Nat) : End × EchoPacket := (echoSender k, ⟨toStdString (k : Int)⟩)

/-- The echoes sent so far, in order, with their senders. -/
def sentEchoes (log : List (Event Byte Digest)) : List (End × EchoPacket) :=
  log.filterMap fun
    | .sent at_ ⟨_, .echo p⟩ => some (at_, p)
    | _ => none

/-- The echoes in flight and the echoes being handled. -/
def Connection.liveEchoes (s : Connection Byte Secret Seed Digest) : Nat :=
  (s.client.incoming ++ s.server.incoming).countP (·.packet.isEcho) +
    (s.client.echoes ++ s.server.echoes).length

/-- One echo is live, the `k`-th one sent carries the numeral of `k`, and no
call has thrown or overflowed. -/
structure EchoCounter (s : Connection Byte Secret Seed Digest) : Prop where
  one_live : s.liveEchoes = 1
  numeral : ∀ k x, (sentEchoes s.log)[k]? = some x → x = echoNumber k
  no_failure : ∀ at_ err, Event.failed at_ err ∉ s.log

/-- The call is about to add one to `INT_MAX`. -/
def EchoPc.atIntMax : EchoPc → Bool
  | .answer p => p.echoMessage = toStdString intMax
  | .sendPacket _ => false

/-- The step does not run `process_echo` on the numeral of `INT_MAX`. -/
def NotAtIntMax (s : Connection Byte Secret Seed Digest) (act : Action Byte Secret Seed) : Prop :=
  ∀ at_ n, act = .echo at_ n → ∀ pc ∈ (s.endpoint at_).echoes[n]?, pc.atIntMax = false

instance NotAtIntMax.decidable (s : Connection Byte Secret Seed Digest) :
    ∀ act, Decidable (NotAtIntMax s act)
  | .echo at_ n =>
      decidable_of_iff (∀ pc ∈ (s.endpoint at_).echoes[n]?, pc.atIntMax = false)
        ⟨fun h _ _ hact => by cases hact; exact h, fun h => h at_ n rfl⟩
  | .coroutine => .isTrue fun _ _ h => by cases h
  | .handler _ => .isTrue fun _ _ h => by cases h
  | .arrive _ _ => .isTrue fun _ _ h => by cases h

@[simp] theorem echoSender_succ (n : Nat) : echoSender (n + 1) = (echoSender n).other := by
  unfold echoSender
  by_cases h : n % 2 = 0
  · have hn : ¬ (n + 1) % 2 = 0 := by omega
    rw [if_pos h, if_neg hn]
    rfl
  · have hn : (n + 1) % 2 = 0 := by omega
    rw [if_neg h, if_pos hn]
    rfl

@[simp] theorem sentEchoes_append (log more : List (Event Byte Digest)) :
    sentEchoes (log ++ more) = sentEchoes log ++ sentEchoes more :=
  List.filterMap_append

/-! ## The invariant -/

/-- Where the `n`-th echo, the last one sent, is. A call that has computed its
response was not at `INT_MAX`. -/
inductive LastEcho (n : Nat) : EchoPlace → Prop where
  | inFlight : LastEcho n (.inFlight ⟨toStdString n⟩)
  | answering : LastEcho n (.handled (.answer ⟨toStdString n⟩))
  | answered : (n : Int) < intMax →
      LastEcho n (.handled (.sendPacket ⟨toStdString ((n + 1 : Nat) : Int)⟩))

/-- The connection has sent the echoes `0, …, n`, and the last of them is at
its receiver's end. -/
inductive Counting : Connection Byte Secret Seed Digest → Prop where
  | intro {e : AES256 Byte Digest} {n : Nat} {b : EchoPlace} {log : List (Event Byte Digest)} :
      LastEcho n b → (n : Int) ≤ intMax →
      sentEchoes log = (List.range (n + 1)).map echoNumber →
      (∀ at_ err, Event.failed at_ err ∉ log) →
      Counting (rallying e (echoSender n).other b log)

variable {C : Crypto Byte Secret Seed Digest} {s t : Connection Byte Secret Seed Digest}
  {act : Action Byte Secret Seed}

theorem counting_afterHandshake (e : AES256 Byte Digest) :
    Counting (Connection.afterHandshake e : Connection Byte Secret Seed Digest) := by
  show Counting (rallying e (echoSender 0).other (.inFlight firstEcho)
    [.sent .client ⟨some e, .echo firstEcho⟩])
  refine .intro .inFlight (by decide) rfl ?_
  intro at_ err hfailed
  cases hfailed with
  | tail _ h => cases h

/-- The invariant is stronger than the property. -/
theorem Counting.echoCounter (h : Counting s) : EchoCounter s := by
  cases h with
  | @intro e n b log hlast hle hsent hfailed =>
      refine ⟨?_, ?_, ?_⟩
      · cases (echoSender n).other <;> cases hlast <;> rfl
      · intro k x hx
        have hlog : (rallying e (echoSender n).other b log :
            Connection Byte Secret Seed Digest).log = log := by
          cases (echoSender n).other <;> rfl
        rw [hlog, hsent, List.getElem?_map, Option.map_eq_some_iff] at hx
        obtain ⟨k', hk', rfl⟩ := hx
        obtain ⟨hlt, rfl⟩ := List.getElem?_eq_some_iff.mp hk'
        rw [List.getElem_range]
      · intro at_ err hm
        refine hfailed at_ err ?_
        cases hend : (echoSender n).other <;> rw [hend] at hm <;> exact hm

/-- The numeral that is being answered is below `INT_MAX`, if the step meets
the condition. -/
theorem NotAtIntMax.lt {e : AES256 Byte Digest} {at_ : End} {n : Nat}
    {log : List (Event Byte Digest)}
    (hok : NotAtIntMax (rallying e at_ (.handled (.answer ⟨toStdString n⟩)) log :
      Connection Byte Secret Seed Digest) (.echo at_ 0))
    (hle : (n : Int) ≤ intMax) : (n : Int) < intMax := by
  have hne : (n : Int) ≠ intMax := by
    intro hn
    have hat := hok at_ 0 rfl (.answer ⟨toStdString n⟩) (by
      rw [rallying_endpoint, if_pos rfl]
      rfl)
    simp [EchoPc.atIntMax, hn] at hat
  omega

/-- Appending an event that is no failure adds no failure. -/
theorem failed_not_mem_append {log : List (Event Byte Digest)} {ev : Event Byte Digest}
    (hlog : ∀ at_ err, Event.failed at_ err ∉ log) (hev : ∀ at_ err, ev ≠ .failed at_ err) :
    ∀ at_ err, Event.failed at_ err ∉ log ++ [ev] := by
  intro at_ err hm
  rcases List.mem_append.mp hm with hm | hm
  · exact hlog at_ err hm
  · exact hev at_ err (List.mem_singleton.mp hm).symm

variable [DecidableEq Byte] [DecidableEq Digest]

/-- A step that does not meet `INT_MAX` keeps the count. -/
theorem Counting.step (hs : Counting s) (hok : NotAtIntMax s act)
    (h : s.step C act = some t) : Counting t := by
  cases hs with
  | @intro e n b log hlast hle hsent hfailed =>
      obtain ⟨at', b', log', hstep, rfl⟩ := rallying_step.mp h
      cases hstep with
      | arrive p c =>
          cases hlast with
          | inFlight =>
              refine .intro .answering hle ?_ (failed_not_mem_append hfailed fun _ _ => by simp)
              rw [sentEchoes_append, hsent]
              exact List.append_nil _
      | answer hpe =>
          cases hlast with
          | answering =>
              have hlt : (n : Int) < intMax := hok.lt hle
              rw [processEcho_numeral hlt] at hpe
              obtain rfl := Except.ok.inj hpe
              exact .intro (.answered hlt) hle hsent hfailed
      | fail hpe =>
          cases hlast with
          | answering =>
              rw [processEcho_numeral (hok.lt hle)] at hpe
              cases hpe
      | send response =>
          cases hlast with
          | answered hlt =>
              -- the receiver of the `n`-th echo is the sender of the next one
              rw [← echoSender_succ n]
              refine .intro .inFlight (by omega) ?_ (failed_not_mem_append hfailed fun _ _ => by simp)
              rw [sentEchoes_append, hsent, List.range_succ (n := n + 1), List.map_append]
              rfl

theorem counting_of_reach (h : (echoing C).Reach NotAtIntMax s) : Counting s := by
  induction h with
  | start h0 =>
      obtain ⟨e, rfl⟩ := h0
      exact counting_afterHandshake e
  | next _ hok hs ih => exact ih.step hok hs

/-! ## The end of the range -/

/-- On the numeral of `INT_MAX` a call fails. -/
theorem failed_of_atIntMax (hat : ¬ NotAtIntMax s act) (h : s.step C act = some t) :
    ∃ at_ err, Event.failed at_ err ∈ t.log := by
  simp only [NotAtIntMax, not_forall, Bool.not_eq_false] at hat
  obtain ⟨at_, n, rfl, pc, hpc, hmax⟩ := hat
  obtain ⟨pc', hpc', h⟩ := Option.bind_eq_some_iff.mp h
  obtain rfl : pc' = pc := Option.some.inj (hpc'.symm.trans hpc)
  cases pc' with
  | sendPacket response => cases hmax
  | answer p =>
      obtain rfl : p = ⟨toStdString intMax⟩ := by
        simpa [EchoPc.atIntMax, EchoPacket.ext_iff] using hmax
      simp only [echoStmt, processEcho_intMax, Connection.perform] at h
      obtain rfl := Option.some.inj h
      refine ⟨at_, .echo .overflows, ?_⟩
      rw [(putEcho_frame _ _ _ _).1]
      exact List.mem_append_right _ (List.mem_singleton.mpr rfl)

/-- The echoes count as long as no call has met `INT_MAX`, and the first
call that does breaks the count. -/
theorem echoCounter_iff_notAtIntMax (h : (echoing C).Reach NotAtIntMax s) :
    EchoCounter s ∧ ∀ act t, s.step C act = some t → (EchoCounter t ↔ NotAtIntMax s act) := by
  have hs : Counting s := counting_of_reach h
  refine ⟨hs.echoCounter, fun act t hstep => ⟨fun ht => ?_, fun hok => ?_⟩⟩
  · by_contra hat
    obtain ⟨at_, err, hm⟩ := failed_of_atIntMax hat hstep
    exact ht.no_failure at_ err hm
  · exact (hs.step hok hstep).echoCounter

/-- Every echo up to the numeral of `INT_MAX` is sent in some run. -/
theorem inFlight_reachable (e : AES256 Byte Digest) (c : ServerChoice Byte Secret Seed) (n : Nat)
    (hn : (n : Int) ≤ intMax) :
    ∃ log, (echoing C).Reachable
      (rallying e (echoSender n).other (.inFlight ⟨toStdString n⟩) log) := by
  induction n with
  | zero => exact ⟨_, .start ⟨e, rfl⟩⟩
  | succ n ih =>
      obtain ⟨log, hlog⟩ := ih (by omega)
      have hpe := processEcho_numeral (k := n) (by omega)
      have harrive := hlog.next trivial (rallying_step.mpr ⟨_, _, _, .arrive _ c, rfl⟩)
      have hanswer := harrive.next trivial (rallying_step.mpr ⟨_, _, _, .answer hpe, rfl⟩)
      have hsend := hanswer.next trivial (rallying_step.mpr ⟨_, _, _, .send _, rfl⟩)
      rw [← echoSender_succ n] at hsend
      exact ⟨_, hsend⟩

/-- The echo `2147483647` is received, and its successor overflows. -/
theorem echo_overflows : ∃ s, (echoing smallCrypto).Reachable s ∧ ¬ EchoCounter s := by
  obtain ⟨log, hlog⟩ := inFlight_reachable (C := smallCrypto)
    ⟨smallCrypto.computeHash [], [], 20⟩ exampleChoice 2147483647 (by decide)
  have harrive := hlog.next trivial (rallying_step.mpr ⟨_, _, _, .arrive _ exampleChoice, rfl⟩)
  have hfail := harrive.next trivial
    (rallying_step.mpr ⟨_, _, _, .fail processEcho_intMax, rfl⟩)
  refine ⟨_, hfail, fun hcount => ?_⟩
  have hone := hcount.one_live
  cases hend : (echoSender 2147483647).other <;> rw [hend] at hone <;> cases hone

/-- The first three echoes. -/
theorem echoCounter_three : ∃ s, (echoing smallCrypto).Reach NotAtIntMax s ∧
    sentEchoes s.log = [(.client, ⟨['0']⟩), (.server, ⟨['1']⟩), (.client, ⟨['2']⟩)] ∧
    EchoCounter s ∧
    ∀ act t, s.step smallCrypto act = some t → (EchoCounter t ↔ NotAtIntMax s act) := by
  obtain ⟨s, hs, hlog⟩ := Machine.Reach.exists_run (m := echoing smallCrypto)
    ([End.server, .client].flatMap fun at_ =>
      [.arrive at_ exampleChoice, .echo at_ 0, .echo at_ 0])
    (fun s => sentEchoes s.log = [(.client, ⟨['0']⟩), (.server, ⟨['1']⟩), (.client, ⟨['2']⟩)])
    (.start ⟨⟨smallCrypto.computeHash [], [], 20⟩, rfl⟩)
    (by decide +kernel : Machine.Meets _ NotAtIntMax _ _) (by decide +kernel)
  exact ⟨s, hs, of_decide_eq_true hlog, echoCounter_iff_notAtIntMax hs⟩

end PacketDistribution.Session
