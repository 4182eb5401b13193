/-
PacketDistribution.Session.SecrecyTheorems — who can know the key of an
installed cipher.

The network is that of `Session.Symbolic`. An attacker knows a key exactly if
the Diffie–Hellman key it was derived from on the other side is one of the
attacker's own: `client_key_derivable_iff`, `server_key_derivable_iff`. The
key of a client that accepted its response is known to that client and to
the handler call that made the response, and to nobody else
(`accepted_key_shared_with_one_call`), and no two handler calls ever compute
one key (`handler_keys_distinct`).

The proofs follow the symbols. What is sent shows no secret of two honest
owners, and no operation of the attacker makes one; and a handler call's
public key is not known before the call has answered.
-/
import PacketDistribution.Session.SymbolicTheorems

namespace PacketDistribution.Session

open PacketDistribution.Lib
open PacketDistribution.Packets

variable {K : KeyReader} {uniqueId : List UInt8} {s t : World}

/-! ## What the attacker sees -/

/-- One of the two owners is the attacker. -/
def Compromised (k : Sym2 Owner) : Prop := ∃ m, Owner.attacker m ∈ k

/-- A symbol that shows no secret of two honest owners, and no hash of one. -/
def Harmless : Atom → Prop
  | .shared k => Compromised k
  | .hash input => ∀ k, Atom.shared k ∈ input → Compromised k
  | _ => True

/-- No operation of the attacker makes a secret of two honest owners. -/
theorem PublicOp.harmless {a b : List Atom} (h : PublicOp K a b) (ha : ∀ x ∈ a, Harmless x) :
    ∀ x ∈ b, Harmless x := by
  intro x hx
  cases h with
  | byte b =>
      obtain rfl := List.mem_singleton.mp hx
      trivial
  | hash input =>
      obtain rfl := List.mem_singleton.mp hx
      exact fun k hk => ha _ hk
  | publicKey n =>
      obtain rfl := List.mem_singleton.mp hx
      trivial
  | @sharedSecret key o n hparse =>
      obtain rfl := List.mem_singleton.mp hx
      exact ⟨n, Sym2.mem_mk_left _ _⟩

/-- Nor does it make the public key of a handler call. -/
theorem PublicOp.no_server_key {a b : List Atom} (h : PublicOp K a b) (j : Nat) :
    Atom.pub (.server j) ∉ b := by
  intro hpub
  cases h <;> cases List.mem_singleton.mp hpub

/-! ## What a statement sends -/

/-- A client's statement leaves the response it was given, and shows the
attacker what it sends. -/
theorem performClient_frame {n : Nat} {p : ClientSession}
    {eff : Effect Atom (List Atom) (ClientPc Atom Owner (List Atom))}
    (h : s.performClient n p eff = some t) :
    ∃ p' more, t = { s.setClient n p' with known := s.known ++ more } ∧
      p'.response = p.response ∧
      (more = [] ∨ ∃ pk next, eff = .sendPacket pk next ∧ more = pk.fields) := by
  have hsame := fun p' => (setClient_reading_nothing s n p').symm
  cases eff with
  | sendPacket pk next =>
      obtain rfl := Option.some.inj h
      exact ⟨_, _, rfl, rfl, .inr ⟨pk, next, rfl, rfl⟩⟩
  | awaitPacket next => cases h
  | go next =>
      obtain rfl := Option.some.inj h
      exact ⟨_, [], hsame _, rfl, .inl rfl⟩
  | setupEncryption e next =>
      obtain rfl := Option.some.inj h
      exact ⟨_, [], hsame _, rfl, .inl rfl⟩
  | destroy next =>
      obtain rfl := Option.some.inj h
      exact ⟨_, [], hsame _, rfl, .inl rfl⟩
  | fail e =>
      obtain rfl := Option.some.inj h
      exact ⟨_, [], hsame _, rfl, .inl rfl⟩

/-- A handler call's statement keeps the call, and shows the attacker what
it sends. -/
theorem performServer_frame {i : Nat} {x : Execution}
    {eff : Effect Atom (List Atom) (ServerPc Atom Owner Unit (List Atom))}
    (h : s.performServer i x eff = some t) :
    ∃ x' more, t = { s.setExecution i x' with known := s.known ++ more } ∧ x'.call = x.call ∧
      (x'.sent = x.sent ∧ more = [] ∨
        ∃ pk next, eff = .sendPacket pk next ∧ x'.sent = x.sent ++ [pk] ∧ more = pk.fields) := by
  have hsame := fun x' => (setExecution_reading_nothing s i x').symm
  cases eff with
  | sendPacket pk next =>
      obtain rfl := Option.some.inj h
      exact ⟨_, _, rfl, rfl, .inr ⟨pk, next, rfl, rfl, rfl⟩⟩
  | awaitPacket next => cases h
  | go next =>
      obtain rfl := Option.some.inj h
      exact ⟨_, [], hsame _, rfl, .inl ⟨rfl, rfl⟩⟩
  | setupEncryption e next =>
      obtain rfl := Option.some.inj h
      exact ⟨_, [], hsame _, rfl, .inl ⟨rfl, rfl⟩⟩
  | destroy next =>
      obtain rfl := Option.some.inj h
      exact ⟨_, [], hsame _, rfl, .inl ⟨rfl, rfl⟩⟩
  | fail e =>
      obtain rfl := Option.some.inj h
      exact ⟨_, [], hsame _, rfl, .inl ⟨rfl, rfl⟩⟩

/-! ## The invariant -/

/-- The client has sent its request. -/
def ClientSession.Asked (n : Nat) (p : ClientSession) : Prop :=
  p.pc = some (.awaitResponse (.client n)) ∨ p.response ≠ none

variable (K) in
/-- What the attacker knows of the sessions, and what it does not. -/
structure KnowledgeInv (s : World) : Prop where
  harmless : ∀ m ∈ s.known, ∀ a ∈ m, Harmless a
  asked : ∀ n p, s.clients n = some p → p.Asked n → [Atom.pub (.client n)] ∈ s.known
  received : ∀ n p r, s.clients n = some p → p.response = some r →
    Derives (PublicOp K) s.known r.publicKey ∧ Derives (PublicOp K) s.known r.salt
  sent : ∀ x ∈ s.executions, ∀ pk ∈ x.sent, ∀ m ∈ pk.fields, m ∈ s.known
  fresh : ∀ i (x : Execution), s.executions[i]? = some x → x.call.choice.dh = .server i
  answered : ∀ m ∈ s.known, ∀ j, Atom.pub (.server j) ∈ m → j < s.executions.length
  earlier : ∀ i (x : Execution), s.executions[i]? = some x → ∀ j,
    Atom.pub (.server j) ∈ x.call.request.publicKey → j < i

theorem knowledgeInv_init : KnowledgeInv K ⟨fun _ => none, [], []⟩ where
  harmless m hm := by cases hm
  asked n p h := by cases h
  received n p r h := by cases h
  sent x hx := by cases hx
  fresh i x h := by cases h
  answered m hm := by cases hm
  earlier i x h := by cases h

/-- A message the attacker can build mentions the public key of a handler
call only if there is such a call. -/
theorem KnowledgeInv.answered_of_derives (hk : KnowledgeInv K s) {m : List Atom}
    (h : Derives (PublicOp K) s.known m) {j : Nat} (hj : Atom.pub (.server j) ∈ m) :
    j < s.executions.length := by
  refine h.forall_mem (P := fun a => ∀ j, a = .pub (.server j) → j < s.executions.length) ?_ ?_
    _ hj j rfl
  · intro a b hab _ x hx j heq
    rw [heq] at hx
    exact absurd hx (hab.no_server_key j)
  · intro m hm x hx j heq
    rw [heq] at hx
    exact hk.answered m hm j hx

theorem KnowledgeInv.harmless_of_derives (hk : KnowledgeInv K s) {m : List Atom}
    (h : Derives (PublicOp K) s.known m) : ∀ a ∈ m, Harmless a :=
  h.forall_mem (fun _ _ hop => hop.harmless) hk.harmless

/-- Messages that show no secret, and no public key of a call to come, may be
read. -/
theorem KnowledgeInv.learn (hk : KnowledgeInv K s) {more : List (List Atom)}
    (hharmless : ∀ m ∈ more, ∀ a ∈ m, Harmless a)
    (hkeys : ∀ m ∈ more, ∀ j, Atom.pub (.server j) ∈ m → j < s.executions.length) :
    KnowledgeInv K { s with known := s.known ++ more } := by
  refine ⟨?_, ?_, ?_, ?_, hk.fresh, ?_, hk.earlier⟩
  · intro m hm a ha
    rcases List.mem_append.mp hm with hm | hm
    · exact hk.harmless m hm a ha
    · exact hharmless m hm a ha
  · exact fun n p hp hasked => List.mem_append_left _ (hk.asked n p hp hasked)
  · intro n p r hp hr
    obtain ⟨hkey, hsalt⟩ := hk.received n p r hp hr
    exact ⟨hkey.mono (List.subset_append_left _ _), hsalt.mono (List.subset_append_left _ _)⟩
  · exact fun x hx pk hpk m hm => List.mem_append_left _ (hk.sent x hx pk hpk m hm)
  · intro m hm j hj
    rcases List.mem_append.mp hm with hm | hm
    · exact hk.answered m hm j hj
    · exact hkeys m hm j hj

/-- A client may become what the attacker's knowledge accounts for. -/
theorem KnowledgeInv.setClient (hk : KnowledgeInv K s) {n : Nat} {p : ClientSession}
    (hasked : p.Asked n → [Atom.pub (.client n)] ∈ s.known)
    (hreceived : ∀ r, p.response = some r →
      Derives (PublicOp K) s.known r.publicKey ∧ Derives (PublicOp K) s.known r.salt) :
    KnowledgeInv K (s.setClient n p) := by
  have hget : ∀ n' q, (s.setClient n p).clients n' = some q →
      s.clients n' = some q ∨ n' = n ∧ q = p := by
    intro n' q hq
    by_cases hn : n' = n
    · subst hn
      exact .inr ⟨rfl, by simpa [World.setClient, eq_comm] using hq⟩
    · exact .inl (by simpa [World.setClient, hn] using hq)
  refine ⟨hk.harmless, ?_, ?_, hk.sent, hk.fresh, hk.answered, hk.earlier⟩
  · intro n' q hq hqasked
    rcases hget n' q hq with hq | ⟨rfl, rfl⟩
    · exact hk.asked n' q hq hqasked
    · exact hasked hqasked
  · intro n' q r hq hr
    rcases hget n' q hq with hq | ⟨rfl, rfl⟩
    · exact hk.received n' q r hq hr
    · exact hreceived r hr

/-- A client's own public key may be read. -/
theorem KnowledgeInv.learn_client (hk : KnowledgeInv K s) {n : Nat} {more : List (List Atom)}
    (hmore : more = [] ∨ more = [[.pub (.client n)]]) :
    KnowledgeInv K { s with known := s.known ++ more } := by
  refine hk.learn ?_ ?_
  · intro m hm a ha
    rcases hmore with rfl | rfl
    · cases hm
    · obtain rfl := List.mem_singleton.mp hm
      obtain rfl := List.mem_singleton.mp ha
      trivial
  · intro m hm j hj
    rcases hmore with rfl | rfl
    · cases hm
    · obtain rfl := List.mem_singleton.mp hm
      cases List.mem_singleton.mp hj

/-- What a response shows: its public key, bytes and a signature. -/
theorem harmless_answer {x : Execution} (hsalt : ∀ a ∈ x.call.choice.salt, ∃ b, a = Atom.byte b) :
    ∀ m ∈ (Packet.response (x.answer (symbolicCrypto K uniqueId))).fields, ∀ a ∈ m, Harmless a := by
  intro m hm a ha
  simp only [Packet.fields, List.mem_cons, List.not_mem_nil, or_false] at hm
  rcases hm with rfl | rfl | rfl
  · obtain rfl := List.mem_singleton.mp ha
    trivial
  · obtain ⟨b, rfl⟩ := hsalt _ ha
    trivial
  · obtain rfl := List.mem_singleton.mp ha
    trivial

/-- The one public key a response shows is the call's own. -/
theorem server_key_of_answer {x : Execution} {i : Nat} (hown : x.call.choice.dh = .server i)
    (hsalt : ∀ a ∈ x.call.choice.salt, ∃ b, a = Atom.byte b) :
    ∀ m ∈ (Packet.response (x.answer (symbolicCrypto K uniqueId))).fields, ∀ j,
      Atom.pub (.server j) ∈ m → j = i := by
  intro m hm j hj
  simp only [Packet.fields, List.mem_cons, List.not_mem_nil, or_false] at hm
  rcases hm with rfl | rfl | rfl
  · have hkey := Atom.pub.inj (List.mem_singleton.mp hj)
    rw [hown] at hkey
    exact Owner.server.inj hkey
  · obtain ⟨b, hb⟩ := hsalt _ hj
    cases hb
  · cases List.mem_singleton.mp hj

/-- A handler call may go on whose packets the attacker has read. -/
theorem KnowledgeInv.setExecution (hk : KnowledgeInv K s) {i : Nat} {x x' : Execution}
    (hx : s.executions[i]? = some x) (hcall : x'.call = x.call)
    (hsent : ∀ pk ∈ x'.sent, ∀ m ∈ pk.fields, m ∈ s.known) :
    KnowledgeInv K (s.setExecution i x') := by
  have hi : i < s.executions.length := (List.getElem?_eq_some_iff.mp hx).1
  have hget : ∀ j y, (s.executions.set i x')[j]? = some y →
      s.executions[j]? = some y ∨ j = i ∧ y = x' := by
    intro j y hy
    by_cases hij : i = j
    · subst hij
      rw [List.getElem?_set_self hi] at hy
      exact .inr ⟨rfl, (Option.some.inj hy).symm⟩
    · rw [List.getElem?_set_ne hij] at hy
      exact .inl hy
  refine ⟨hk.harmless, hk.asked, hk.received, ?_, ?_, ?_, ?_⟩
  · intro y hy
    rcases List.mem_or_eq_of_mem_set hy with hy | rfl
    · exact hk.sent y hy
    · exact hsent
  · intro j y hy
    rcases hget j y hy with hy | ⟨rfl, rfl⟩
    · exact hk.fresh j y hy
    · rw [hcall]
      exact hk.fresh j x hx
  · intro m hm j hj
    show j < (s.executions.set i x').length
    rw [List.length_set]
    exact hk.answered m hm j hj
  · intro j y hy
    rcases hget j y hy with hy | ⟨rfl, rfl⟩
    · exact hk.earlier j y hy
    · rw [hcall]
      exact hk.earlier j x hx

/-- A new call may be made on a key that shows no call to come. -/
theorem KnowledgeInv.addExecution (hk : KnowledgeInv K s) {x : Execution} (hsent : x.sent = [])
    (hown : x.call.choice.dh = .server s.executions.length)
    (hearlier : ∀ j, Atom.pub (.server j) ∈ x.call.request.publicKey → j < s.executions.length) :
    KnowledgeInv K { s with executions := s.executions ++ [x] } := by
  have hget : ∀ i y, (s.executions ++ [x])[i]? = some y →
      s.executions[i]? = some y ∨ i = s.executions.length ∧ y = x := by
    intro i y hy
    rw [List.getElem?_append] at hy
    split at hy
    · exact .inl hy
    · rename_i hlt
      rw [List.getElem?_singleton] at hy
      split at hy
      · exact .inr ⟨by omega, (Option.some.inj hy).symm⟩
      · cases hy
  refine ⟨hk.harmless, hk.asked, hk.received, ?_, ?_, ?_, ?_⟩
  · intro y hy pk hpk
    rcases List.mem_append.mp hy with hy | hy
    · exact hk.sent y hy pk hpk
    · obtain rfl := List.mem_singleton.mp hy
      rw [hsent] at hpk
      cases hpk
  · intro i y hy
    rcases hget i y hy with hy | ⟨rfl, rfl⟩
    · exact hk.fresh i y hy
    · exact hown
  · intro m hm j hj
    have hlt := hk.answered m hm j hj
    show j < (s.executions ++ [x]).length
    rw [List.length_append]
    exact Nat.lt_add_right _ hlt
  · intro i y hy j hj
    rcases hget i y hy with hy | ⟨rfl, rfl⟩
    · exact hk.earlier i y hy j hj
    · exact hearlier j hj

/-- A client that holds a response sends no packet the attacker can read. -/
theorem ClientShape.sends_nothing {n : Nat} {p : ClientSession}
    {pc : ClientPc Atom Owner (List Atom)} {pk : Packet Atom}
    {next : Option (ClientPc Atom Owner (List Atom))}
    (hp : ClientShape (symbolicCrypto K uniqueId) n p) (hpc : p.pc = some pc)
    (hresp : p.response ≠ none) (h : clientStmt (symbolicCrypto K uniqueId) pc = .sendPacket pk next) :
    pk.fields = [] := by
  cases hp with
  | opening => exact absurd rfl hresp
  | prepared => exact absurd rfl hresp
  | requested => exact absurd rfl hresp
  | computing hrecv _ =>
      obtain rfl := Option.some.inj hpc
      rcases clientStmt_outcome (symbolicCrypto K uniqueId) hrecv with
        ⟨next', hnext | hnext, -⟩ | ⟨e, hinstall, -⟩ | ⟨hfail, -⟩
      · rw [hnext] at h
        cases h
      · rw [hnext] at h
        cases h
      · rw [hinstall] at h
        cases h
      · rw [hfail] at h
        cases h
  | installed _ =>
      obtain rfl := Option.some.inj hpc
      cases h
      rfl
  | refused r => cases hpc
  | returned _ => cases hpc

/-- What a client's statement shows the attacker is the client's public key,
with its request. -/
theorem ClientShape.asks {n : Nat} {p : ClientSession} {pc : ClientPc Atom Owner (List Atom)}
    (hp : ClientShape (symbolicCrypto K uniqueId) n p) (hpc : p.pc = some pc)
    (h : s.performClient n p (clientStmt (symbolicCrypto K uniqueId) pc) = some t) :
    ∃ p' more, t = { s.setClient n p' with known := s.known ++ more } ∧
      p'.response = p.response ∧ (p'.Asked n → p.Asked n ∨ more = [[.pub (.client n)]]) ∧
      (more = [] ∨ more = [[.pub (.client n)]]) := by
  by_cases hresp : p.response = none
  · cases hp with
    | opening =>
        obtain rfl := Option.some.inj hpc
        obtain rfl := Option.some.inj h
        refine ⟨_, [], (setClient_reading_nothing s n _).symm, rfl, ?_, .inl rfl⟩
        rintro (hpc | hne)
        · cases hpc
        · exact absurd rfl hne
    | prepared =>
        obtain rfl := Option.some.inj hpc
        obtain rfl := Option.some.inj h
        exact ⟨_, _, rfl, rfl, fun _ => .inr rfl, .inr rfl⟩
    | requested =>
        obtain rfl := Option.some.inj hpc
        cases h
    | _ => cases hresp
  · obtain ⟨p', more, rfl, hsame, hmore⟩ := performClient_frame h
    refine ⟨p', more, rfl, hsame, fun _ => .inl (.inr hresp), .inl ?_⟩
    rcases hmore with rfl | ⟨pk, next, hsend, rfl⟩
    · rfl
    · exact hp.sends_nothing hpc hresp hsend

theorem ClientShape.asked_of_awaiting {n : Nat} {p : ClientSession}
    {pc : ClientPc Atom Owner (List Atom)} {next : SymResponse → ClientPc Atom Owner (List Atom)}
    (hp : ClientShape (symbolicCrypto K uniqueId) n p) (hpc : p.pc = some pc)
    (h : clientStmt (symbolicCrypto K uniqueId) pc = .awaitPacket next) : p.Asked n := by
  cases hp with
  | requested => exact .inl rfl
  | opening =>
      obtain rfl := Option.some.inj hpc
      cases h
  | prepared =>
      obtain rfl := Option.some.inj hpc
      cases h
  | _ => exact .inr nofun

/-- What a handler call sends is its response. -/
theorem ExecutionShape.sends {x : Execution} {pc : ServerPc Atom Owner Unit (List Atom)}
    {pk : Packet Atom} {next : Option (ServerPc Atom Owner Unit (List Atom))}
    (hx : ExecutionShape (symbolicCrypto K uniqueId) x) (hpc : x.pc = some pc)
    (h : serverStmt (symbolicCrypto K uniqueId) pc = .sendPacket pk next) :
    pk = .response (x.answer (symbolicCrypto K uniqueId)) := by
  cases hx with
  | @running pc' hpc' _ hsent hout =>
      obtain rfl : pc' = pc := Option.some.inj (hpc'.symm.trans hpc)
      rcases serverStmt_outcome (symbolicCrypto K uniqueId) hsent with
        ⟨next', hnext, -⟩ | ⟨r, e, next', hsend, -, ho, -⟩ | ⟨hfail, -⟩
      · rw [hnext] at h
        cases h
      · rw [hout] at ho
        obtain ⟨e', -, heq⟩ := Option.map_eq_some_iff.mp ho
        obtain ⟨hr, -⟩ := Prod.mk.inj heq
        obtain rfl := Option.some.inj hr
        rw [hsend] at h
        exact (Effect.sendPacket.inj h).1.symm
      · rw [hfail] at h
        cases h
  | @answered pc' e hpc' _ hsent hout =>
      obtain rfl : pc' = pc := Option.some.inj (hpc'.symm.trans hpc)
      rcases serverStmt_outcome_sent (symbolicCrypto K uniqueId) hsent hout with
        ⟨next', hnext, -⟩ | hinstall
      · rw [hnext] at h
        cases h
      · rw [hinstall] at h
        cases h
  | returned hnone _ =>
      rw [hnone] at hpc
      cases hpc

/-- A step whose packet the attacker can build keeps the invariant. -/
theorem KnowledgeInv.step {act : Move} (hi : WorldInv (symbolicCrypto K uniqueId) s)
    (hk : KnowledgeInv K s) (hok : Deducible K s act) (h : s.step K uniqueId act = some t) :
    KnowledgeInv K t := by
  cases act with
  | start n =>
      simp only [World.step] at h
      split at h
      · obtain rfl := Option.some.inj h
        refine hk.setClient ?_ (fun r hr => by cases hr)
        rintro (hpc | hne)
        · cases hpc
        · exact absurd rfl hne
      · cases h
  | client n =>
      simp only [World.step, Option.bind_eq_some_iff] at h
      obtain ⟨p, hp, pc, hpc, h⟩ := h
      obtain ⟨p', more, rfl, hresp, hasked, hmore⟩ := (hi.client n p hp).asks hpc h
      have hlearned := hk.learn_client hmore
      refine hlearned.setClient (fun hpasked => ?_)
        (fun r hr => hlearned.received n p r hp (hresp ▸ hr))
      rcases hasked hpasked with hpasked | rfl
      · exact hlearned.asked n p hp hpasked
      · exact List.mem_append_right _ (List.mem_singleton.mpr rfl)
  | deliver n r =>
      simp only [World.step, Option.bind_eq_some_iff] at h
      obtain ⟨p, hp, pc, hpc, h⟩ := h
      obtain ⟨next, hawait⟩ :
          ∃ next, clientStmt (symbolicCrypto K uniqueId) pc = .awaitPacket next := by
        split at h
        · exact ⟨_, ‹_›⟩
        · cases h
      rw [hawait] at h
      obtain rfl := Option.some.inj h
      have hasked : p.Asked n := (hi.client n p hp).asked_of_awaiting hpc hawait
      refine hk.setClient (fun _ => hk.asked n p hp hasked) (fun r' hr => ?_)
      obtain rfl := Option.some.inj hr
      exact ⟨hok.1, hok.2.1⟩
  | request session p salt nRounds =>
      obtain rfl := Option.some.inj h
      exact hk.addExecution rfl rfl fun j hj => hk.answered_of_derives hok hj
  | server i =>
      simp only [World.step, Option.bind_eq_some_iff] at h
      obtain ⟨x, hx, pc, hpc, h⟩ := h
      have hold : x ∈ s.executions := List.mem_iff_getElem?.mpr ⟨i, hx⟩
      have hsalt := hi.salt x hold
      obtain ⟨x', more, rfl, hcall, ⟨hsame, rfl⟩ | ⟨pk, next, hsend, hsent, rfl⟩⟩ :=
        performServer_frame h
      · have hlearned : KnowledgeInv K { s with known := s.known ++ [] } := by
          rwa [List.append_nil]
        exact hlearned.setExecution hx hcall (hsame ▸ hlearned.sent x hold)
      · obtain rfl := (hi.execution x hold).sends hpc hsend
        have hkeys := @server_key_of_answer K uniqueId x i (hk.fresh i x hx) hsalt
        have hlearned := hk.learn (harmless_answer hsalt) fun m hm j hj =>
          hkeys m hm j hj ▸ (List.getElem?_eq_some_iff.mp hx).1
        refine hlearned.setExecution hx hcall (hsent ▸ fun pk' hpk => ?_)
        rcases List.mem_append.mp hpk with hpk | hpk
        · exact hlearned.sent x hold pk' hpk
        · obtain rfl := List.mem_singleton.mp hpk
          exact fun m hm => List.mem_append_right _ hm

theorem knowledgeInv_of_reach (h : (network K uniqueId).Reach (Deducible K) s) :
    KnowledgeInv K s := by
  induction h with
  | start h0 =>
      rw [h0]
      exact knowledgeInv_init
  | next hr hok hs ih => exact ih.step (worldInv_of_reach hr) hok hs

/-- Only a client that was given a response installs a cipher. -/
theorem WorldInv.response_of_installed (hi : WorldInv (symbolicCrypto K uniqueId) s) {n : Nat}
    {p : ClientSession} {e : SymCipher} (hp : s.clients n = some p) (he : p.installed = some e) :
    ∃ r, p.response = some r := by
  have hshape := hi.client n p hp
  cases hshape with
  | installed _ => exact ⟨_, rfl⟩
  | returned _ => exact ⟨_, rfl⟩
  | _ => cases he

/-! ## Who can know a key -/

/-- The bytes of the key of a cipher, one symbol for the hash value. -/
def keyBytes (e : SymCipher) : List Atom := [.hash e.key]

/-- The client's key is the hash of the shared secret and the salt. -/
theorem clientCipher_symbolic {dh : Owner} {r : SymResponse} {e : SymCipher}
    (h : clientCipher (symbolicCrypto K uniqueId) dh r = some e) :
    ∃ o, K.parse r.publicKey = some o ∧ e.key = .shared s(dh, o) :: r.salt := by
  obtain ⟨secret, hsecret, rfl⟩ := Option.map_eq_some_iff.mp h
  obtain ⟨o, hparse, rfl⟩ := Option.map_eq_some_iff.mp hsecret
  exact ⟨o, hparse, rfl⟩

theorem serverCipher_symbolic {call : ServerCall Atom Owner Unit} {e : SymCipher}
    (h : serverCipher (symbolicCrypto K uniqueId) call = some e) :
    ∃ o, K.parse call.request.publicKey = some o ∧
      e.key = .shared s(call.choice.dh, o) :: call.choice.salt := by
  obtain ⟨secret, hsecret, rfl⟩ := Option.map_eq_some_iff.mp h
  obtain ⟨o, hparse, rfl⟩ := Option.map_eq_some_iff.mp hsecret
  exact ⟨o, hparse, rfl⟩

/-- With a secret of its own the attacker computes the key that is derived
from a public key and a salt it has. -/
theorem derives_key {known : List (List Atom)} {o : Owner} {salt : List Atom} (m : Nat)
    (hkey : Derives (PublicOp K) known [.pub o]) (hsalt : Derives (PublicOp K) known salt) :
    Derives (PublicOp K) known [.hash (.shared s(o, .attacker m) :: salt)] := by
  have hsecret : Derives (PublicOp K) known [.shared s(o, .attacker m)] := by
    rw [Sym2.eq_swap]
    exact .apply (.sharedSecret m (K.parse_pub o)) hkey
  exact .apply (.hash _) (.append hsecret hsalt)

/-- Without one, it can only know keys that were shared with it. -/
theorem KnowledgeInv.compromised (hk : KnowledgeInv K s) {e : SymCipher} {a b : Owner}
    {salt : List Atom} (hkey : e.key = .shared s(a, b) :: salt)
    (h : Derives (PublicOp K) s.known (keyBytes e)) : Compromised s(a, b) := by
  have hharmless : Harmless (.hash e.key) :=
    hk.harmless_of_derives h _ (List.mem_singleton.mpr rfl)
  exact hharmless s(a, b) (by rw [hkey]; exact List.mem_cons_self)

/-- **Client keys.** The attacker can know the key a client has installed,
whether or not the client accepted its response, if and only if the public
key in the response is one of the attacker's own. -/
theorem client_key_derivable_iff (h : (network K uniqueId).Reach (Deducible K) s) {n : Nat}
    {p : ClientSession} {r : SymResponse} {e : SymCipher} (hp : s.clients n = some p)
    (hr : p.response = some r) (he : p.installed = some e) :
    Derives (PublicOp K) s.known (keyBytes e) ↔ ∃ m, K.parse r.publicKey = some (.attacker m) := by
  have hk := knowledgeInv_of_reach h
  obtain ⟨o, hparse, hkey⟩ := clientCipher_symbolic ((worldInv_of_reach h).installed hp hr he)
  constructor
  · intro hknown
    obtain ⟨m, hm⟩ := hk.compromised hkey hknown
    rcases Sym2.mem_iff.mp hm with hm | rfl
    · cases hm
    · exact ⟨m, hparse⟩
  · rintro ⟨m, hm⟩
    obtain rfl : o = .attacker m := Option.some.inj (hparse.symm.trans hm)
    have hasked : p.Asked n := .inr (by rw [hr]; exact nofun)
    rw [keyBytes, hkey]
    exact derives_key m (.known (hk.asked n p hp hasked)) (hk.received n p r hp hr).2

/-- The run in which the client's own request is answered: its key stays
secret. -/
theorem client_key_derivable_iff_own :
    ∃ s p e, (network strictReader [1, 0, 0, 0]).Reach (Deducible strictReader) s ∧
      s.clients 0 = some p ∧ p.installed = some e ∧
      ¬ Derives (PublicOp strictReader) s.known (keyBytes e) := by
  obtain ⟨s, hs, hend⟩ := Machine.Reach.exists_run (m := network strictReader [1, 0, 0, 0])
    (answering ⟨[.pub (.client 0)]⟩) (hasInstalled ⟨[.pub (.client 0)]⟩)
    (.start rfl) (by decide +kernel : Machine.Meets _ Forwarded _ _) (by decide +kernel)
  have hreach := hs.mono fun _ _ hok => hok.deducible strictReader
  obtain ⟨e, p, hp, hr, -, he⟩ := accepted_of_hasInstalled hend
  refine ⟨s, p, e, hreach, hp, he, ?_⟩
  rw [client_key_derivable_iff hreach hp hr he]
  rintro ⟨m, hm⟩
  cases hm

/-- **Server keys.** The attacker can know the key that a handler call
computes, once the call has answered, if and only if the public key in the
request is one of the attacker's own. -/
theorem server_key_derivable_iff (h : (network K uniqueId).Reach (Deducible K) s) {x : Execution}
    {e : SymCipher} (hx : x ∈ s.executions)
    (hsent : Packet.response (x.answer (symbolicCrypto K uniqueId)) ∈ x.sent)
    (he : serverCipher (symbolicCrypto K uniqueId) x.call = some e) :
    Derives (PublicOp K) s.known (keyBytes e) ↔
      ∃ m, K.parse x.call.request.publicKey = some (.attacker m) := by
  have hk := knowledgeInv_of_reach h
  obtain ⟨i, hi⟩ := List.mem_iff_getElem?.mp hx
  have hdh := hk.fresh i x hi
  obtain ⟨o, hparse, hkey⟩ := serverCipher_symbolic he
  constructor
  · intro hknown
    obtain ⟨m, hm⟩ := hk.compromised hkey hknown
    rw [hdh] at hm
    rcases Sym2.mem_iff.mp hm with hm | rfl
    · cases hm
    · exact ⟨m, hparse⟩
  · rintro ⟨m, hm⟩
    obtain rfl : o = .attacker m := Option.some.inj (hparse.symm.trans hm)
    have hfields := hk.sent x hx _ hsent
    rw [keyBytes, hkey]
    exact derives_key m (.known (hfields _ List.mem_cons_self))
      (.known (hfields _ (List.mem_cons_of_mem _ List.mem_cons_self)))

/-- The attacker sends a request on a session of its own. -/
def attackerAsks (session : Nat) : Move := .request session ⟨[.pub (.attacker 0)]⟩ drawnSalt 20

theorem deducible_attackerAsks (s : World) (session : Nat) :
    Deducible strictReader s (attackerAsks session) :=
  Forwarded.deducible strictReader (.inr rfl)

/-- The server has answered a request of the attacker's. -/
def hasAnswered (s : World) : Bool :=
  s.executions.any fun x =>
    decide (Packet.response (x.answer strictCrypto) ∈ x.sent) &&
      decide (x.call.request.publicKey = [.pub (.attacker 0)]) &&
      (serverCipher strictCrypto x.call).isSome

/-- A handler call that was asked by the attacker shares its key with it. -/
theorem server_key_derivable_iff_attacker :
    ∃ s x e, (network strictReader [1, 0, 0, 0]).Reach (Deducible strictReader) s ∧
      x ∈ s.executions ∧ serverCipher strictCrypto x.call = some e ∧
      Derives (PublicOp strictReader) s.known (keyBytes e) := by
  obtain ⟨s, hs, hend⟩ := Machine.Reach.exists_run (m := network strictReader [1, 0, 0, 0])
    (attackerAsks 7 :: List.replicate 8 (.server 0)) hasAnswered
    (.start rfl) (by decide +kernel : Machine.Meets _ Forwarded _ _) (by decide +kernel)
  have hreach := hs.mono fun _ _ hok => hok.deducible strictReader
  obtain ⟨x, hx, hsaid⟩ := List.any_eq_true.mp hend
  obtain ⟨hsaid, hcipher⟩ := Bool.and_eq_true_iff.mp hsaid
  obtain ⟨hsent, hkey⟩ := Bool.and_eq_true_iff.mp hsaid
  obtain ⟨e, he⟩ := Option.isSome_iff_exists.mp hcipher
  refine ⟨s, x, e, hreach, hx, he, ?_⟩
  rw [server_key_derivable_iff hreach hx (of_decide_eq_true hsent) he]
  exact ⟨0, by rw [of_decide_eq_true hkey]; rfl⟩

/-! ## Who shares a key -/

/-- A string is read as a key that is in it. -/
def KeyReader.Faithful (K : KeyReader) : Prop :=
  ∀ key o, K.parse key = some o → Atom.pub o ∈ key

/-- **No key is used twice.** Two handler calls compute different keys,
whatever the attacker made them answer. -/
theorem handler_keys_distinct (hK : K.Faithful) (h : (network K uniqueId).Reach (Deducible K) s)
    {i j : Nat} {x y : Execution} {e e' : SymCipher} (hx : s.executions[i]? = some x)
    (hy : s.executions[j]? = some y) (hij : i ≠ j)
    (he : serverCipher (symbolicCrypto K uniqueId) x.call = some e)
    (he' : serverCipher (symbolicCrypto K uniqueId) y.call = some e') : e.key ≠ e'.key := by
  intro heq
  have hk := knowledgeInv_of_reach h
  obtain ⟨o, hparse, hkey⟩ := serverCipher_symbolic he
  obtain ⟨o', hparse', hkey'⟩ := serverCipher_symbolic he'
  rw [hkey, hkey', hk.fresh i x hx, hk.fresh j y hy] at heq
  rcases Sym2.eq_iff.mp (Atom.shared.inj (List.cons.inj heq).1) with ⟨hown, -⟩ | ⟨ho', ho⟩
  · exact hij (Owner.server.inj hown)
  · -- each would have been asked with the other's key, before the other had answered
    have hlt : j < i := hk.earlier i x hx j (hK _ _ (ho ▸ hparse))
    have hgt : i < j := hk.earlier j y hy i (hK _ _ (ho' ▸ hparse'))
    omega

theorem strictReader_faithful : strictReader.Faithful := by
  intro key o h
  unfold strictReader at h
  dsimp only at h
  split at h
  · obtain rfl := Option.some.inj h
    exact List.mem_singleton.mpr rfl
  · cases h

/-- Two calls that were asked with one and the same key. -/
theorem handler_keys_distinct_twice :
    ∃ s x y e e', (network strictReader [1, 0, 0, 0]).Reach (Deducible strictReader) s ∧
      s.executions[0]? = some x ∧ s.executions[1]? = some y ∧
      x.call.request = y.call.request ∧ serverCipher strictCrypto x.call = some e ∧
      serverCipher strictCrypto y.call = some e' ∧ e.key ≠ e'.key := by
  have hreach : (network strictReader [1, 0, 0, 0]).Reach (Deducible strictReader) _ :=
    ((Machine.Reach.start rfl).next (deducible_attackerAsks _ 7) rfl).next
      (deducible_attackerAsks _ 8) rfl
  exact ⟨_, _, _, _, _, hreach, rfl, rfl, rfl, rfl, rfl,
    handler_keys_distinct strictReader_faithful hreach rfl rfl Nat.zero_ne_one rfl rfl⟩

/-- The call made the response: what is signed in it, and the signature, are
its own. -/
structure MadeBy (C : Crypto Atom Owner Unit (List Atom)) (x : Execution) (r : SymResponse) :
    Prop where
  bytes : r.publicKey ++ r.salt = (x.answer C).publicKey ++ (x.answer C).salt
  signature : r.signature = (x.answer C).signature

/-- A call signs what no other call signs: its public key comes first. -/
theorem KnowledgeInv.signed_unique (hk : KnowledgeInv K s) {i j : Nat} {x y : Execution}
    {r : SymResponse} (hx : s.executions[i]? = some x) (hy : s.executions[j]? = some y)
    (hsigned : MadeBy (symbolicCrypto K uniqueId) x r)
    (hsigned' : MadeBy (symbolicCrypto K uniqueId) y r) : j = i := by
  have hkey := (List.cons.inj (hsigned'.bytes.symm.trans hsigned.bytes)).1
  have hdh : y.call.choice.dh = x.call.choice.dh := Atom.pub.inj hkey
  rw [hk.fresh i x hx, hk.fresh j y hy] at hdh
  exact Owner.server.inj hdh

/-- The key in an accepted response is that of the call that signed it. -/
theorem accepted_key_of_call (hK : K.Faithful) (h : (network K uniqueId).Reach (Deducible K) s)
    {n : Nat} {r : SymResponse} {e : SymCipher}
    (hacc : Accepted (symbolicCrypto K uniqueId) s n r e) :
    ∃ (i : Nat) (x : Execution), s.executions[i]? = some x ∧
      Packet.response (x.answer (symbolicCrypto K uniqueId)) ∈ x.sent ∧
      MadeBy (symbolicCrypto K uniqueId) x r ∧
      e.key = .shared s(.client n, .server i) :: r.salt := by
  have hi := worldInv_of_reach h
  obtain ⟨x, hx, hsent, hbytes⟩ := hi.accepted hacc
  obtain ⟨p, hp, hr, hverify, he⟩ := hacc
  obtain ⟨o, hparse, hkey⟩ := clientCipher_symbolic (hi.installed hp hr he)
  obtain ⟨i, hget⟩ := List.mem_iff_getElem?.mp hx
  have hmem : Atom.pub o ∈ (x.answer (symbolicCrypto K uniqueId)).publicKey ++
      (x.answer (symbolicCrypto K uniqueId)).salt := by
    rw [← hbytes]
    exact List.mem_append_left _ (hK _ _ hparse)
  have hown : o = .server i := by
    rcases List.mem_append.mp hmem with hpub | hsalt
    · have hdh := Atom.pub.inj (List.mem_singleton.mp hpub)
      rw [hdh]
      exact (knowledgeInv_of_reach h).fresh i x hget
    · obtain ⟨b, hb⟩ := hi.salt x hx _ hsalt
      cases hb
  -- the client verified the signature of the bytes that were signed
  have hsignature : r.signature = (x.answer (symbolicCrypto K uniqueId)).signature := by
    have hsig : r.signature = [.sig (r.publicKey ++ r.salt ++ uniqueId.map .byte)] :=
      of_decide_eq_true hverify
    rw [hsig, hbytes]
    rfl
  exact ⟨i, x, hget, hsent, ⟨hbytes, hsignature⟩, hown ▸ hkey⟩

/-- **An accepted key has two owners.** The attacker cannot know the key that
a client installs after it accepted its response. No other client has it. One
handler call, and no other, signed the response; of all calls only that one
can compute the key, and only if it was asked with this client's public key. -/
theorem accepted_key_shared_with_one_call (hK : K.Faithful)
    (h : (network K uniqueId).Reach (Deducible K) s) {n : Nat} {r : SymResponse} {e : SymCipher}
    (hacc : Accepted (symbolicCrypto K uniqueId) s n r e) :
    ¬ Derives (PublicOp K) s.known (keyBytes e) ∧
    (∀ n' p' e', s.clients n' = some p' → p'.installed = some e' → e'.key = e.key → n' = n) ∧
    ∃ (i : Nat) (x : Execution), s.executions[i]? = some x ∧
      Packet.response (x.answer (symbolicCrypto K uniqueId)) ∈ x.sent ∧
      MadeBy (symbolicCrypto K uniqueId) x r ∧
      (∀ (j : Nat) (y : Execution), s.executions[j]? = some y →
        MadeBy (symbolicCrypto K uniqueId) y r → j = i) ∧
      ∀ (j : Nat) (y : Execution) e', s.executions[j]? = some y →
        serverCipher (symbolicCrypto K uniqueId) y.call = some e' → e'.key = e.key →
        j = i ∧ K.parse y.call.request.publicKey = some (.client n) := by
  have hi := worldInv_of_reach h
  have hk := knowledgeInv_of_reach h
  obtain ⟨i, x, hx, hsent, hsigned, hkey⟩ := accepted_key_of_call hK h hacc
  refine ⟨?_, ?_, i, x, hx, hsent, hsigned, ?_, ?_⟩
  · intro hknown
    obtain ⟨m, hm⟩ := hk.compromised hkey hknown
    rcases Sym2.mem_iff.mp hm with hm | hm
    · cases hm
    · cases hm
  · intro n' p' e' hp' he' heq
    obtain ⟨r', hr'⟩ := hi.response_of_installed hp' he'
    obtain ⟨o, -, hkey'⟩ := clientCipher_symbolic (hi.installed hp' hr' he')
    rw [hkey', hkey] at heq
    rcases Sym2.eq_iff.mp (Atom.shared.inj (List.cons.inj heq).1) with ⟨hown, -⟩ | ⟨hown, -⟩
    · exact Owner.client.inj hown
    · cases hown
  · intro j y hy hsigned'
    exact hk.signed_unique hx hy hsigned hsigned'
  · intro j y e' hy he' heq
    obtain ⟨o, hparse, hkey'⟩ := serverCipher_symbolic he'
    rw [hkey', hkey, hk.fresh j y hy] at heq
    rcases Sym2.eq_iff.mp (Atom.shared.inj (List.cons.inj heq).1) with ⟨hown, -⟩ | ⟨hown, rfl⟩
    · cases hown
    · exact ⟨Owner.server.inj hown, hparse⟩

/-- The client whose own request was answered. -/
theorem accepted_key_shared_with_one_call_own :
    ∃ s e, (network strictReader [1, 0, 0, 0]).Reach (Deducible strictReader) s ∧
      Accepted strictCrypto s 0 (firstResponse ⟨[.pub (.client 0)]⟩) e ∧
      ¬ Derives (PublicOp strictReader) s.known (keyBytes e) := by
  obtain ⟨s, hs, hend⟩ := Machine.Reach.exists_run (m := network strictReader [1, 0, 0, 0])
    (answering ⟨[.pub (.client 0)]⟩) (hasInstalled ⟨[.pub (.client 0)]⟩)
    (.start rfl) (by decide +kernel : Machine.Meets _ Forwarded _ _) (by decide +kernel)
  have hreach := hs.mono fun _ _ hok => hok.deducible strictReader
  obtain ⟨e, hacc⟩ := accepted_of_hasInstalled hend
  exact ⟨s, e, hreach, hacc,
    (accepted_key_shared_with_one_call strictReader_faithful hreach hacc).1⟩

end PacketDistribution.Session
