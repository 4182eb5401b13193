/-
PacketDistribution.Session.SyncTheorems — when the two ends open packets in
the mode they were sealed in.

The server sends its response before it builds and installs its cipher.
From then on the client may install its own, send the first echo and have
it arrive while the server still opens packets as plaintext: `echoOutOfStep`
is such a run. `inSync_iff_noEarlyArrival` says that this is the only way:
as long as nothing arrives at the server between its `send_packet` and its
`setup_encryption`, every packet is opened as it was sealed, and the first
arrival in that window is not.
-/
import PacketDistribution.Session.ConnectionTheorems

namespace PacketDistribution.Session

open PacketDistribution.Lib
open PacketDistribution.Packets

variable {Byte Secret Seed Digest : Type} {C : Crypto Byte Secret Seed Digest} {dh : Secret}

/-- Every packet that arrived was opened in the mode it was sealed in: the
key exchange as plaintext, all echoes, in both directions, under one cipher. -/
structure InSync (s : Connection Byte Secret Seed Digest) : Prop where
  same_mode : ∀ at_ m opened, Event.arrived at_ m opened ∈ s.log → opened = m.mode
  exchange_plain : ∀ at_ m opened, Event.arrived at_ m opened ∈ s.log →
    m.packet.isEcho = false → m.mode = none
  echo_cipher : ∀ at_ m opened at' m' opened', Event.arrived at_ m opened ∈ s.log →
    Event.arrived at' m' opened' ∈ s.log → m.packet.isEcho = true → m'.packet.isEcho = true →
    ∃ e, m.mode = some e ∧ m'.mode = some e

/-- Nothing arrives at the server while a handler call has sent its response
and has not installed its cipher. -/
def NoEarlyArrival (s : Connection Byte Secret Seed Digest) (act : Action Byte Secret Seed) :
    Prop :=
  ∀ c, act = .arrive .server c → ∀ pc ∈ s.handlers, pc.sent = false

/-! ## Runs without an early arrival -/

variable [DecidableEq Byte] [DecidableEq Digest]
  {s t : Connection Byte Secret Seed Digest} {act : Action Byte Secret Seed}

/-- `InSync` in the form that a step keeps: the one cipher of the echoes is
the client's, which is installed before the first of them is sealed. -/
def InSyncWithClient (s : Connection Byte Secret Seed Digest) : Prop :=
  ∀ at_ m opened, Event.arrived at_ m opened ∈ s.log → opened = m.mode ∧
    (m.packet.isEcho = false ∧ m.mode = none ∨
      m.packet.isEcho = true ∧ ∃ e, m.mode = some e ∧ s.client.cipher = some e)

omit [DecidableEq Byte] [DecidableEq Digest] in
theorem InSyncWithClient.inSync (h : InSyncWithClient s) : InSync s where
  same_mode at_ m opened hm := (h at_ m opened hm).1
  exchange_plain at_ m opened hm hecho := by
    rcases (h at_ m opened hm).2 with ⟨-, hmode⟩ | ⟨hecho', -⟩
    · exact hmode
    · rw [hecho] at hecho'
      cases hecho'
  echo_cipher at_ m opened at' m' opened' hm hm' hecho hecho' := by
    have hmode : ∀ at_ m opened, Event.arrived at_ m opened ∈ s.log → m.packet.isEcho = true →
        m.mode = s.client.cipher ∧ s.client.cipher ≠ none := by
      intro at_ m opened hm hecho
      rcases (h at_ m opened hm).2 with ⟨hplain, -⟩ | ⟨-, e, hmode, he⟩
      · rw [hecho] at hplain
        cases hplain
      · exact ⟨hmode.trans he.symm, by simp [he]⟩
    obtain ⟨hm, hsome⟩ := hmode at_ m opened hm hecho
    obtain ⟨hm', -⟩ := hmode at' m' opened' hm' hecho'
    obtain ⟨e, he⟩ := Option.ne_none_iff_exists'.mp hsome
    exact ⟨e, hm.trans he, hm'.trans he⟩

omit [DecidableEq Byte] [DecidableEq Digest] in
/-- What arrives in time is opened as it was sealed. -/
theorem Arriving.inSync {at_ : End} {m : Sealed Byte Digest} (ha : Arriving C dh s at_ m)
    (hok : at_ = .server → ∀ pc ∈ s.handlers, pc.sent = false) :
    (s.endpoint at_).cipher = m.mode ∧
      (m.packet.isEcho = false ∧ m.mode = none ∨
        m.packet.isEcho = true ∧ ∃ e, m.mode = some e ∧ s.client.cipher = some e) := by
  cases ha with
  | request hcipher _ => exact ⟨hcipher, .inl ⟨rfl, rfl⟩⟩
  | response c hcipher _ => exact ⟨hcipher, .inl ⟨rfl, rfl⟩⟩
  | echo p hcipher hclient _ => exact ⟨hcipher, .inr ⟨rfl, _, rfl, hclient⟩⟩
  | early p _ hpc hsent =>
      rw [hok rfl _ hpc] at hsent
      cases hsent

/-- A step without an early arrival keeps the ends in step. -/
theorem InSyncWithClient.step (hp : Phase C dh s) (hin : InSyncWithClient s)
    (hok : NoEarlyArrival s act) (h : s.step C act = some t) : InSyncWithClient t := by
  have hkeep : ∀ e, s.client.cipher = some e → t.client.cipher = some e :=
    fun e he => hp.client_cipher h he
  intro at_ m opened hm
  rcases arrived_mem_step h hm with hm | ⟨c, rest, rfl, hhead, rfl⟩
  · obtain ⟨hsame, hplain | ⟨hecho, e, hmode, he⟩⟩ := hin at_ m opened hm
    · exact ⟨hsame, .inl hplain⟩
    · exact ⟨hsame, .inr ⟨hecho, e, hmode, hkeep e he⟩⟩
  · have hnow := (hp.arriving hhead).inSync fun hat => hok c (by rw [hat])
    obtain ⟨hsame, hplain | ⟨hecho, e, hmode, he⟩⟩ := hnow
    · exact ⟨hsame, .inl hplain⟩
    · exact ⟨hsame, .inr ⟨hecho, e, hmode, hkeep e he⟩⟩

/-- In a run without an early arrival the ends stay in step. -/
theorem inSyncWithClient_of_reach (hC : C.Lawful) (h : (connection C dh).Reach NoEarlyArrival s) :
    InSyncWithClient s := by
  induction h with
  | start h0 =>
      intro at_ m opened hm
      rw [h0] at hm
      cases hm
  | next hr hok hs ih => exact ih.step (phase_of_reach hC hr) hok hs

/-! ## The early arrival -/

/-- An early arrival is an echo sealed with the client's cipher and opened
as plaintext. -/
theorem not_inSync_of_early (hp : Phase C dh s) (hearly : ¬ NoEarlyArrival s act)
    (h : s.step C act = some t) : ¬ InSync t := by
  intro hin
  simp only [NoEarlyArrival, not_forall] at hearly
  obtain ⟨c, rfl, pc, hpc, hsent⟩ := hearly
  obtain ⟨m, rest, hhead, hlog, -⟩ := deliver_frame h
  have hm : Event.arrived .server m s.server.cipher ∈ t.log := by
    rw [hlog]
    exact List.mem_append_right _ (List.mem_singleton.mpr rfl)
  cases hp.arriving hhead with
  | request _ hnot => exact hsent (hnot pc hpc)
  | echo p _ _ hnone =>
      rw [hnone] at hpc
      cases hpc
  | early p hcipher _ _ =>
      have hmode := hin.same_mode _ _ _ hm
      rw [hcipher] at hmode
      cases hmode

/-- The ends are in step as long as nothing has arrived early, and the first
early arrival puts them out of step. -/
theorem inSync_iff_noEarlyArrival (hC : C.Lawful)
    (h : (connection C dh).Reach NoEarlyArrival s) :
    InSync s ∧ ∀ act t, s.step C act = some t → (InSync t ↔ NoEarlyArrival s act) := by
  have hp : Phase C dh s := phase_of_reach hC h
  have hin : InSyncWithClient s := inSyncWithClient_of_reach hC h
  refine ⟨hin.inSync, fun act t hstep => ⟨fun ht => ?_, fun hok => ?_⟩⟩
  · by_contra hearly
    exact not_inSync_of_early hp hearly hstep ht
  · exact (hin.step hp hok hstep).inSync

/-! ## Two schedules -/

instance NoEarlyArrival.decidable (s : Connection Byte Secret Seed Digest) :
    ∀ act, Decidable (NoEarlyArrival s act)
  | .arrive .server c =>
      decidable_of_iff (∀ pc ∈ s.handlers, pc.sent = false) ⟨fun h _ _ => h, fun h => h c rfl⟩
  | .arrive .client _ => .isTrue fun _ h => by cases h
  | .coroutine => .isTrue fun _ h => by cases h
  | .handler _ => .isTrue fun _ h => by cases h
  | .echo _ _ => .isTrue fun _ h => by cases h

/-- An arrival at `at_` opened in another mode than it was sealed in. -/
def Event.outOfMode (at_ : End) : Event Byte Digest → Bool
  | .arrived at' m opened => at' = at_ && opened ≠ m.mode
  | _ => false

/-- An arrival of an echo at `at_`. -/
def Event.echoArrived (at_ : End) : Event Byte Digest → Bool
  | .arrived at' m _ => at' = at_ && m.packet.isEcho
  | _ => false

/-- The client's first echo arrives between the server's `send_packet` and
its `setup_encryption`, and is opened as plaintext. -/
theorem echoOutOfStep : ∃ s, (connection smallCrypto 3).Reachable s ∧ ¬ InSync s := by
  obtain ⟨s, hs, hlog⟩ := Machine.Reach.exists_run (m := connection smallCrypto 3)
    (untilFirstEcho ++ [.arrive .server exampleChoice])
    (fun s => s.log.any (Event.outOfMode .server)) (.start rfl)
    (by decide +kernel : Machine.Meets _ (fun _ _ => True) _ _) (by decide +kernel)
  refine ⟨s, hs, fun hin => ?_⟩
  obtain ⟨ev, hev, hout⟩ := List.any_eq_true.mp hlog
  cases ev with
  | arrived at_ m opened =>
      have hsame : opened = m.mode := hin.same_mode at_ m opened hev
      simp [Event.outOfMode, hsame] at hout
  | _ => cases hout

/-- With the server's last two statements before the echo's arrival, one
full exchange of echoes is in step. -/
theorem inSync_afterSetup : ∃ s, (connection smallCrypto 3).Reach NoEarlyArrival s ∧
    s.log.any (Event.echoArrived .server) = true ∧ s.log.any (Event.echoArrived .client) = true ∧
    InSync s ∧ ∀ act t, s.step smallCrypto act = some t → (InSync t ↔ NoEarlyArrival s act) := by
  obtain ⟨s, hs, hlog⟩ := Machine.Reach.exists_run (m := connection smallCrypto 3)
    (untilFirstEcho ++ [.handler 0, .handler 0, .arrive .server exampleChoice, .echo .server 0,
      .echo .server 0, .arrive .client exampleChoice])
    (fun s => s.log.any (Event.echoArrived .server) && s.log.any (Event.echoArrived .client))
    (.start rfl) (by decide +kernel : Machine.Meets _ NoEarlyArrival _ _) (by decide +kernel)
  obtain ⟨hserver, hclient⟩ := Bool.and_eq_true_iff.mp hlog
  exact ⟨s, hs, hserver, hclient, inSync_iff_noEarlyArrival smallCrypto_lawful hs⟩

end PacketDistribution.Session
