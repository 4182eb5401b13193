/-
PacketDistribution.Session.AgreementTheorems — key agreement between honest
ends.

Any number of connections run side by side; they share the server's signer
and nothing else, so a run of all of them is, seen from one, a run of that
one (`Machine.Reachable.component`). In a single connection the shapes of
`Phase` give the rest: the only response that arrives is the one the server
made to this client's request, and what the two ends install is the
outcome of that exchange.
-/
import PacketDistribution.Session.ConnectionTheorems

namespace PacketDistribution.Session

open PacketDistribution.Lib
open PacketDistribution.Packets

section Connection

variable {Byte Secret Seed Digest : Type} [DecidableEq Byte] [DecidableEq Digest]
  {C : Crypto Byte Secret Seed Digest} {dh : Secret}
  {s t : Connection Byte Secret Seed Digest}

/-! ## The responses that arrive -/

/-- Every response that has arrived at the client was made by a server call. -/
def ResponsesGenuine (C : Crypto Byte Secret Seed Digest)
    (s : Connection Byte Secret Seed Digest) : Prop :=
  ∀ mode r opened, Event.arrived .client ⟨mode, .response r⟩ opened ∈ s.log →
    ∃ c : ServerChoice Byte Secret Seed, r = serverResponse C c

/-- The response at the head of the client's channel is one. -/
theorem ResponsesGenuine.step {act : Action Byte Secret Seed} (hp : Phase C dh s)
    (hg : ResponsesGenuine C s) (h : s.step C act = some t) : ResponsesGenuine C t := by
  intro mode r opened hm
  rcases arrived_mem_step h hm with hm | ⟨c, rest, -, hhead, -⟩
  · exact hg mode r opened hm
  · cases hp.arriving hhead with
    | response c' _ _ => exact ⟨c', rfl⟩

theorem responsesGenuine_of_reach (hC : C.Lawful) (h : (connection C dh).Reachable s) :
    ResponsesGenuine C s := by
  induction h with
  | start h0 =>
      intro mode r opened hm
      rw [h0] at hm
      cases hm
  | next hr _ hs ih => exact ih.step (phase_of_reach hC hr) hs

/-! ## The two ciphers -/

omit [DecidableEq Byte] [DecidableEq Digest] in
/-- A server that has a cipher has the one its call computed. -/
theorem ServerAfter.cipher {e e' : AES256 Byte Digest}
    {hd : List (ServerPc Byte Secret Seed Digest)} {sc : Option (AES256 Byte Digest)}
    (h : ServerAfter C e hd sc) (he : sc = some e') : e' = e := by
  cases h with
  | pending hsent ho => cases he
  | installed => exact (Option.some.inj he).symm

omit [DecidableEq Byte] [DecidableEq Digest] in
/-- Two installed ciphers are one, and it comes from the exchange in the log. -/
theorem Phase.ciphers_agree (hp : Phase C dh s) {e e' : AES256 Byte Digest}
    (he : s.client.cipher = some e) (he' : s.server.cipher = some e') :
    e = e' ∧ Exchanged C dh e s.log := by
  cases hp with
  | answered _ hsv hcl hx =>
      cases hcl with
      | installed =>
          obtain rfl := Option.some.inj he
          exact ⟨(hsv.cipher he').symm, hx⟩
      | _ => cases he
  | echoSent hsv hx =>
      obtain rfl := Option.some.inj he
      exact ⟨(hsv.cipher he').symm, hx⟩
  | echoLost hsv hx =>
      obtain rfl := Option.some.inj he
      exact ⟨(hsv.cipher he').symm, hx⟩
  | @rally e at_ b log hx =>
      cases at_ <;> cases b <;>
      · obtain rfl := Option.some.inj he
        obtain rfl := Option.some.inj he'
        exact ⟨rfl, hx⟩
  | _ => cases he

end Connection

/-! ## Side by side -/

variable {Secret Seed ι : Type} [DecidableEq ι]

/-- The connections of all clients to one server. -/
def connections (C : Crypto UInt8 Secret Seed Digest256) (dh : ι → Secret) :
    Machine (ι → Connection UInt8 Secret Seed Digest256) (ι × Action UInt8 Secret Seed) :=
  Machine.product fun i => connection C (dh i)

/-- **Key agreement.** In every run of any number of connections, every
response that reaches a client passes `verify_hash`; and where both ends of
a connection have a cipher, it is one cipher, which either end derives from
this connection's own request and response. -/
theorem ciphers_agree_of_reachable {C : Crypto UInt8 Secret Seed Digest256} (hC : C.Lawful)
    {dh : ι → Secret} {s : ι → Connection UInt8 Secret Seed Digest256}
    (h : (connections C dh).Reachable s) (i : ι) :
    (∀ mode r opened, Event.arrived .client ⟨mode, .response r⟩ opened ∈ (s i).log →
      C.verifyHash (r.getHash C) r.signature = true) ∧
    ∀ e e', (s i).client.cipher = some e → (s i).server.cipher = some e' →
      e = e' ∧ ∃ c : ServerChoice UInt8 Secret Seed,
        Event.sent .client ⟨none, .request (ownRequest C (dh i))⟩ ∈ (s i).log ∧
        Event.sent .server ⟨none, .response (serverResponse C c)⟩ ∈ (s i).log ∧
        serverCipher C ⟨ownRequest C (dh i), c⟩ = some e ∧
        clientCipher C (dh i) (serverResponse C c) = some e := by
  have hi : (connection C (dh i)).Reachable (s i) := Machine.Reachable.component h i
  constructor
  · intro mode r opened hm
    obtain ⟨c, rfl⟩ := responsesGenuine_of_reach hC hi mode r opened hm
    exact verifyHash_serverResponse hC c
  · intro e e' he he'
    obtain ⟨heq, c, hcipher, hreq, hresp⟩ := (phase_of_reach hC hi).ciphers_agree he he'
    refine ⟨heq, c, hreq, hresp, hcipher, ?_⟩
    rw [clientCipher_serverResponse hC]
    exact hcipher

/-- Two clients take turns; both ends of the first have their ciphers. -/
theorem ciphers_agree_twoClients :
    ∃ s : Bool → Connection UInt8 Nat Unit Digest256,
      (connections smallCrypto fun first => cond first 3 6).Reachable s ∧
      (∃ r opened, Event.arrived .client ⟨none, .response r⟩ opened ∈ (s true).log ∧
        smallCrypto.verifyHash (r.getHash smallCrypto) r.signature = true) ∧
      ∃ e e', (s true).client.cipher = some e ∧ (s true).server.cipher = some e' ∧ e = e' := by
  obtain ⟨s, hs, hend⟩ := Machine.Reach.exists_run
    (m := connections smallCrypto fun first => cond first 3 6)
    ((untilFirstEcho ++ List.replicate 2 (Action.handler 0)).flatMap fun a => [(true, a), (false, a)])
    (fun s => (s true).client.cipher.isSome && (s true).server.cipher.isSome &&
      (s true).log.contains
        (.arrived .client ⟨none, .response (serverResponse smallCrypto exampleChoice)⟩ none))
    (.start fun _ => rfl) (by decide +kernel : Machine.Meets _ (fun _ _ => True) _ _)
    (by decide +kernel)
  simp only [Bool.and_eq_true, List.contains_iff_mem, Option.isSome_iff_exists] at hend
  obtain ⟨⟨⟨e, he⟩, e', he'⟩, harrived⟩ := hend
  obtain ⟨hverify, hagree⟩ := ciphers_agree_of_reachable smallCrypto_lawful hs true
  exact ⟨s, hs, ⟨_, _, harrived, hverify _ _ _ harrived⟩, e, e', he, he', (hagree e e' he he').1⟩

end PacketDistribution.Session
