/-
PacketDistribution.Session.SymbolicTheorems — what a client knows when it
accepts a response on an open network.

The signature covers the public key and the salt of the response and
nothing of the request, so a response made for one request is accepted by a
client that sent another: `forwarded_response_accepted` is that run, with an
attacker that only forwards packets. What the client does know is that the
server made the response: `accepted_response_signed`.

The proof follows signatures. No operation of the attacker makes one, so
every signature in a known message was sent by a handler call, under the
hash of that call's own response.
-/
import PacketDistribution.Session.Symbolic

namespace PacketDistribution.Session

open PacketDistribution.Lib
open PacketDistribution.Packets

variable (C : Crypto Atom Owner Unit (List Atom))

/-! ## Accepted responses -/

/-- Client `n` was given the response `r`, which passes `verify_hash`, and
has called `setup_encryption` with `e`. -/
def Accepted (s : World) (n : Nat) (r : SymResponse) (e : SymCipher) : Prop :=
  ∃ p, s.clients n = some p ∧ p.response = some r ∧
    C.verifyHash (r.getHash C) r.signature = true ∧ p.installed = some e

/-- The handler call ran on client `n`'s own request and computes the cipher
that `n` has installed. -/
def Matches (s : World) (n : Nat) (x : Execution) : Prop :=
  x.call.request.publicKey = C.getPublicKey (.client n) ∧
    ∃ p e, s.clients n = some p ∧ p.installed = some e ∧ serverCipher C x.call = some e

/-- Every client that accepts a response matches a handler call, and no two
clients match the same one. -/
def SessionBinding (s : World) : Prop :=
  (∀ n r e, Accepted C s n r e → ∃ x ∈ s.executions, Matches C s n x) ∧
    ∀ n n' x, x ∈ s.executions → Matches C s n x → Matches C s n' x → n = n'

/-! ## The shapes of the sessions -/

/-- The response of a call. -/
def Execution.answer (x : Execution) : SymResponse := serverResponse C x.call.choice

/-- The shapes of a client session. -/
inductive ClientShape (n : Nat) : ClientSession → Prop where
  | opening : ClientShape n ⟨some (.getPublicKey (.client n)), none, none⟩
  | prepared : ClientShape n
      ⟨some (.sendRequest (.client n) ⟨C.getPublicKey (.client n)⟩), none, none⟩
  | requested : ClientShape n ⟨some (.awaitResponse (.client n)), none, none⟩
  | computing {pc : ClientPc Atom Owner (List Atom)} {r : SymResponse} :
      pc.received = true → pc.outcome C = clientCipher C (.client n) r →
      ClientShape n ⟨some pc, some r, none⟩
  | refused (r : SymResponse) : ClientShape n ⟨none, some r, none⟩
  | installed {r : SymResponse} {e : SymCipher} : clientCipher C (.client n) r = some e →
      ClientShape n ⟨some .sendEcho, some r, some e⟩
  | returned {r : SymResponse} {e : SymCipher} : clientCipher C (.client n) r = some e →
      ClientShape n ⟨none, some r, some e⟩

/-- The shapes of a handler call. -/
inductive ExecutionShape : Execution → Prop where
  | running {x : Execution} {pc : ServerPc Atom Owner Unit (List Atom)} : x.pc = some pc →
      x.sent = [] → pc.sent = false →
      pc.outcome C = (serverCipher C x.call).map (fun e => (some (x.answer C), e)) →
      ExecutionShape x
  | answered {x : Execution} {pc : ServerPc Atom Owner Unit (List Atom)} {e : SymCipher} :
      x.pc = some pc → x.sent = [.response (x.answer C)] → pc.sent = true →
      pc.outcome C = some (none, e) → ExecutionShape x
  | returned {x : Execution} : x.pc = none →
      x.sent = [.response (x.answer C)] ∨ x.sent = [] → ExecutionShape x

/-- The signature of `input` was sent by a handler call, with the response
that `input` is the hash of. -/
def Signed (s : World) (input : List Atom) : Prop :=
  ∃ x ∈ s.executions, Packet.response (x.answer C) ∈ x.sent ∧ input = (x.answer C).getHash C

/-- A message all of whose signatures were sent by handler calls. -/
def SignedIn (s : World) (m : List Atom) : Prop :=
  ∀ input, Atom.sig input ∈ m → Signed C s input

/-- The invariant of the network. -/
structure WorldInv (s : World) : Prop where
  client : ∀ n p, s.clients n = some p → ClientShape C n p
  execution : ∀ x ∈ s.executions, ExecutionShape C x
  salt : ∀ x ∈ s.executions, ∀ a ∈ x.call.choice.salt, ∃ b, a = Atom.byte b
  known : ∀ m ∈ s.known, SignedIn C s m
  received : ∀ n p r, s.clients n = some p → p.response = some r → SignedIn C s r.signature

/-! ## Steps of one session -/

variable {C} {K : KeyReader} {uniqueId : List UInt8} {s t : World}

/-- A step that shows the attacker nothing leaves the known messages. -/
theorem setClient_reading_nothing (s : World) (n : Nat) (p : ClientSession) :
    { s.setClient n p with known := s.known ++ [] } = s.setClient n p := by
  rw [List.append_nil]
  rfl

theorem setExecution_reading_nothing (s : World) (i : Nat) (x : Execution) :
    { s.setExecution i x with known := s.known ++ [] } = s.setExecution i x := by
  rw [List.append_nil]
  rfl

/-- A statement of a client keeps the shape of its session and the response
it was given, and shows the attacker no signature. -/
theorem ClientShape.step {n : Nat} {p : ClientSession}
    {pc : ClientPc Atom Owner (List Atom)} (hp : ClientShape (symbolicCrypto K uniqueId) n p)
    (hpc : p.pc = some pc)
    (h : s.performClient n p (clientStmt (symbolicCrypto K uniqueId) pc) = some t) :
    ∃ p' more, t = { s.setClient n p' with known := s.known ++ more } ∧
      ClientShape (symbolicCrypto K uniqueId) n p' ∧ p'.response = p.response ∧
      ∀ m ∈ more, ∀ input, Atom.sig input ∉ m := by
  have hquiet : ∀ m ∈ ([] : List (List Atom)), ∀ input, Atom.sig input ∉ m := by
    intro m hm
    cases hm
  have hsame := fun p' => (setClient_reading_nothing s n p').symm
  cases hp with
  | opening =>
      obtain rfl := Option.some.inj hpc
      obtain rfl := Option.some.inj h
      exact ⟨_, [], hsame _, .prepared, rfl, hquiet⟩
  | prepared =>
      obtain rfl := Option.some.inj hpc
      obtain rfl := Option.some.inj h
      refine ⟨_, _, rfl, .requested, rfl, ?_⟩
      intro m hm input hsig
      obtain rfl := List.mem_singleton.mp hm
      cases List.mem_singleton.mp hsig
  | requested =>
      obtain rfl := Option.some.inj hpc
      cases h
  | computing hrecv hout =>
      obtain rfl := Option.some.inj hpc
      rcases clientStmt_outcome (symbolicCrypto K uniqueId) hrecv with
        ⟨next, hnext | hnext, hrecv', ho'⟩ | ⟨e, hinstall, he⟩ | ⟨hfail, -⟩
      · rw [hnext] at h
        obtain rfl := Option.some.inj h
        exact ⟨_, [], hsame _, .computing hrecv' (ho'.trans hout), rfl, hquiet⟩
      · rw [hnext] at h
        obtain rfl := Option.some.inj h
        exact ⟨_, [], hsame _, .computing hrecv' (ho'.trans hout), rfl, hquiet⟩
      · rw [hinstall] at h
        obtain rfl := Option.some.inj h
        exact ⟨_, [], hsame _, .installed (hout.symm.trans he), rfl, hquiet⟩
      · rw [hfail] at h
        obtain rfl := Option.some.inj h
        exact ⟨_, [], hsame _, .refused _, rfl, hquiet⟩
  | refused r => cases hpc
  | installed he =>
      obtain rfl := Option.some.inj hpc
      obtain rfl := Option.some.inj h
      exact ⟨_, [], rfl, .returned he, rfl, hquiet⟩
  | returned he => cases hpc

/-- A client that awaits its response is at the start of verifying it. -/
theorem ClientShape.awaiting {n : Nat} {p : ClientSession}
    {pc : ClientPc Atom Owner (List Atom)} {next : SymResponse → ClientPc Atom Owner (List Atom)}
    (hp : ClientShape C n p) (hpc : p.pc = some pc) (h : clientStmt C pc = .awaitPacket next) :
    p.installed = none ∧ next = .verifyHash (.client n) := by
  cases hp with
  | requested =>
      obtain rfl := Option.some.inj hpc
      obtain rfl := Effect.awaitPacket.inj h
      exact ⟨rfl, rfl⟩
  | computing hrecv hout =>
      obtain rfl := Option.some.inj hpc
      rcases clientStmt_outcome C hrecv with
        ⟨next', hnext | hnext, -⟩ | ⟨e, hinstall, -⟩ | ⟨hfail, -⟩
      · rw [hnext] at h
        cases h
      · rw [hnext] at h
        cases h
      · rw [hinstall] at h
        cases h
      · rw [hfail] at h
        cases h
  | opening =>
      obtain rfl := Option.some.inj hpc
      cases h
  | prepared =>
      obtain rfl := Option.some.inj hpc
      cases h
  | installed he =>
      obtain rfl := Option.some.inj hpc
      cases h
  | refused r => cases hpc
  | returned he => cases hpc

/-- A statement of a handler call keeps its shape and its request, and shows
the attacker at most the call's own response. -/
theorem ExecutionShape.step {i : Nat} {x : Execution}
    {pc : ServerPc Atom Owner Unit (List Atom)}
    (hx : ExecutionShape (symbolicCrypto K uniqueId) x) (hpc : x.pc = some pc)
    (h : s.performServer i x (serverStmt (symbolicCrypto K uniqueId) pc) = some t) :
    ∃ x' more, t = { s.setExecution i x' with known := s.known ++ more } ∧
      ExecutionShape (symbolicCrypto K uniqueId) x' ∧ x'.call = x.call ∧ x.sent ⊆ x'.sent ∧
      (more = [] ∨ more = (Packet.response (x.answer (symbolicCrypto K uniqueId))).fields ∧
        Packet.response (x.answer (symbolicCrypto K uniqueId)) ∈ x'.sent) := by
  have hsame := fun x' => (setExecution_reading_nothing s i x').symm
  cases hx with
  | @running pc' hpc' hnone hsent hout =>
      obtain rfl : pc' = pc := Option.some.inj (hpc'.symm.trans hpc)
      rcases serverStmt_outcome (symbolicCrypto K uniqueId) hsent with
        ⟨next, hnext, hsent', ho'⟩ | ⟨r, e, next, hsend, hsent', ho, ho'⟩ | ⟨hfail, -⟩
      · rw [hnext] at h
        obtain rfl := Option.some.inj h
        exact ⟨_, [], hsame _, .running rfl hnone hsent' (ho'.trans hout), rfl,
          List.Subset.refl _, .inl rfl⟩
      · -- what is sent is the response the whole call was going to send
        rw [hout] at ho
        obtain ⟨e', -, heq⟩ := Option.map_eq_some_iff.mp ho
        obtain ⟨hr, -⟩ := Prod.mk.inj heq
        obtain rfl := Option.some.inj hr
        rw [hsend] at h
        obtain rfl := Option.some.inj h
        refine ⟨_, _, rfl, .answered rfl ?_ hsent' ho', rfl, ?_, .inr ⟨rfl, ?_⟩⟩
        · rw [hnone]
          rfl
        · exact List.subset_append_left _ _
        · exact List.mem_append_right _ (List.mem_singleton.mpr rfl)
      · rw [hfail] at h
        obtain rfl := Option.some.inj h
        exact ⟨_, [], hsame _, .returned rfl (.inr hnone), rfl, List.Subset.refl _, .inl rfl⟩
  | @answered pc' e hpc' hone hsent hout =>
      obtain rfl : pc' = pc := Option.some.inj (hpc'.symm.trans hpc)
      rcases serverStmt_outcome_sent (symbolicCrypto K uniqueId) hsent hout with
        ⟨next, hnext, hsent', ho'⟩ | hinstall
      · rw [hnext] at h
        obtain rfl := Option.some.inj h
        exact ⟨_, [], hsame _, .answered rfl hone hsent' ho', rfl, List.Subset.refl _, .inl rfl⟩
      · rw [hinstall] at h
        obtain rfl := Option.some.inj h
        exact ⟨_, [], hsame _, .returned rfl (.inl hone), rfl, List.Subset.refl _, .inl rfl⟩
  | returned hnone _ =>
      rw [hnone] at hpc
      cases hpc

/-! ## Where signatures come from -/

/-- Handler calls stay: each is still there, with its request, and has sent
what it had sent. -/
def Grows (s t : World) : Prop :=
  ∀ x ∈ s.executions, ∃ y ∈ t.executions, y.call = x.call ∧ x.sent ⊆ y.sent

theorem Signed.mono (hgrow : Grows s t) {input : List Atom} (h : Signed C s input) :
    Signed C t input := by
  obtain ⟨x, hx, hsent, hinput⟩ := h
  obtain ⟨y, hy, hcall, hsub⟩ := hgrow x hx
  have hanswer : y.answer C = x.answer C := by
    unfold Execution.answer
    rw [hcall]
  exact ⟨y, hy, by rw [hanswer]; exact hsub hsent, by rw [hanswer]; exact hinput⟩

theorem SignedIn.mono (hgrow : Grows s t) {m : List Atom} (h : SignedIn C s m) :
    SignedIn C t m :=
  fun input hin => (h input hin).mono hgrow

/-- No operation of the attacker makes a signature of the server. -/
theorem PublicOp.no_sig {a b : List Atom} (h : PublicOp K a b) (input : List Atom) :
    Atom.sig input ∉ b := by
  intro hsig
  cases h <;> cases List.mem_singleton.mp hsig

/-- So every signature in a message of the attacker's was sent by a call. -/
theorem WorldInv.signedIn (hi : WorldInv C s) {m : List Atom}
    (h : Derives (PublicOp K) s.known m) : SignedIn C s m := by
  intro input hin
  refine h.forall_mem (P := fun a => ∀ input, a = .sig input → Signed C s input) ?_ ?_ _ hin
    input rfl
  · intro a b hab _ x hx input hsig
    rw [hsig] at hx
    exact absurd hx (hab.no_sig input)
  · intro m hm x hx input hsig
    rw [hsig] at hx
    exact hi.known m hm input hx

/-! ## The invariant -/

theorem grows_setExecution {i : Nat} {x x' : Execution} (known : List (List Atom))
    (hx : s.executions[i]? = some x) (hcall : x'.call = x.call) (hsub : x.sent ⊆ x'.sent) :
    Grows s { s.setExecution i x' with known := known } := by
  intro y hy
  obtain ⟨j, hj⟩ := List.mem_iff_getElem?.mp hy
  by_cases hij : i = j
  · subst hij
    obtain rfl : x = y := Option.some.inj (hx.symm.trans hj)
    refine ⟨x', ?_, hcall, hsub⟩
    exact List.mem_set (List.getElem?_eq_some_iff.mp hx).1 _
  · refine ⟨y, ?_, rfl, List.Subset.refl _⟩
    refine List.mem_iff_getElem?.mpr ⟨j, ?_⟩
    show (s.executions.set i x')[j]? = some y
    rw [List.getElem?_set_ne hij]
    exact hj

theorem worldInv_init : WorldInv C ⟨fun _ => none, [], []⟩ where
  client n p h := by cases h
  execution x hx := by cases hx
  salt x hx := by cases hx
  known m hm := by cases hm
  received n p r h := by cases h

/-- Replacing one client session keeps the invariant. -/
theorem WorldInv.setClient (hi : WorldInv C s) {n : Nat} {p : ClientSession}
    (hp : ClientShape C n p) (hr : ∀ r, p.response = some r → SignedIn C s r.signature)
    {more : List (List Atom)} (hmore : ∀ m ∈ more, ∀ input, Atom.sig input ∉ m) :
    WorldInv C { s.setClient n p with known := s.known ++ more } where
  client n' p' h := by
    by_cases hn : n' = n
    · subst hn
      obtain rfl : p = p' := by simpa [World.setClient] using h
      exact hp
    · exact hi.client n' p' (by simpa [World.setClient, hn] using h)
  execution := hi.execution
  salt := hi.salt
  known m hm := by
    rcases List.mem_append.mp hm with hm | hm
    · exact hi.known m hm
    · exact fun input hin => absurd hin (hmore m hm input)
  received n' p' r h hresp := by
    by_cases hn : n' = n
    · subst hn
      obtain rfl : p = p' := by simpa [World.setClient] using h
      exact hr r hresp
    · exact hi.received n' p' r (by simpa [World.setClient, hn] using h) hresp

/-- The signature is the only one in a call's response. -/
theorem signedIn_fields {x : Execution}
    (hsalt : ∀ a ∈ x.call.choice.salt, ∃ b, a = Atom.byte b) (hx : x ∈ s.executions)
    (hsent : Packet.response (x.answer (symbolicCrypto K uniqueId)) ∈ x.sent) :
    ∀ m ∈ (Packet.response (x.answer (symbolicCrypto K uniqueId))).fields,
      SignedIn (symbolicCrypto K uniqueId) s m := by
  intro m hm input hin
  simp only [Packet.fields, List.mem_cons, List.not_mem_nil, or_false] at hm
  rcases hm with rfl | rfl | rfl
  · cases List.mem_singleton.mp hin
  · obtain ⟨b, hb⟩ := hsalt _ hin
    cases hb
  · have hinput := Atom.sig.inj (List.mem_singleton.mp hin)
    exact ⟨x, hx, hsent, hinput⟩

/-- A handler call that takes a statement keeps the invariant. -/
theorem WorldInv.setExecution {i : Nat} {x x' : Execution} {more : List (List Atom)}
    (hi : WorldInv (symbolicCrypto K uniqueId) s) (hx : s.executions[i]? = some x)
    (hx' : ExecutionShape (symbolicCrypto K uniqueId) x') (hcall : x'.call = x.call)
    (hsub : x.sent ⊆ x'.sent)
    (hmore : more = [] ∨
      more = (Packet.response (x.answer (symbolicCrypto K uniqueId))).fields ∧
        Packet.response (x.answer (symbolicCrypto K uniqueId)) ∈ x'.sent) :
    WorldInv (symbolicCrypto K uniqueId)
      { s.setExecution i x' with known := s.known ++ more } := by
  have hgrow := grows_setExecution (s.known ++ more) hx hcall hsub
  have hmem : ∀ y ∈ s.executions.set i x', y ∈ s.executions ∨ y = x' :=
    fun y hy => List.mem_or_eq_of_mem_set hy
  have hold : x ∈ s.executions := List.mem_iff_getElem?.mpr ⟨i, hx⟩
  have hnew : x' ∈ s.executions.set i x' := List.mem_set (List.getElem?_eq_some_iff.mp hx).1 _
  have hsalt : ∀ a ∈ x'.call.choice.salt, ∃ b, a = Atom.byte b := by
    rw [hcall]
    exact hi.salt x hold
  refine ⟨hi.client, ?_, ?_, ?_, ?_⟩
  · intro y hy
    rcases hmem y hy with hy | rfl
    · exact hi.execution y hy
    · exact hx'
  · intro y hy
    rcases hmem y hy with hy | rfl
    · exact hi.salt y hy
    · exact hsalt
  · intro m hm
    rcases List.mem_append.mp hm with hm | hm
    · exact (hi.known m hm).mono hgrow
    · rcases hmore with rfl | ⟨rfl, hsent⟩
      · cases hm
      · have hanswer : x'.answer (symbolicCrypto K uniqueId)
            = x.answer (symbolicCrypto K uniqueId) := by
          unfold Execution.answer
          rw [hcall]
        rw [← hanswer] at hm hsent
        exact signedIn_fields hsalt hnew hsent m hm
  · exact fun n p r hp hr => (hi.received n p r hp hr).mono hgrow

/-- A step whose packet the attacker can build keeps the invariant. -/
theorem WorldInv.step {act : Move} (hi : WorldInv (symbolicCrypto K uniqueId) s)
    (hok : Deducible K s act) (h : s.step K uniqueId act = some t) :
    WorldInv (symbolicCrypto K uniqueId) t := by
  cases act with
  | start n =>
      simp only [World.step] at h
      split at h
      · obtain rfl := Option.some.inj h
        rw [← setClient_reading_nothing]
        exact hi.setClient .opening (fun r hr => by cases hr) (fun m hm => by cases hm)
      · cases h
  | client n =>
      simp only [World.step, Option.bind_eq_some_iff] at h
      obtain ⟨p, hp, pc, hpc, h⟩ := h
      obtain ⟨p', more, rfl, hp', hresp, hmore⟩ := (hi.client n p hp).step hpc h
      exact hi.setClient hp' (fun r hr => hi.received n p r hp (hresp ▸ hr)) hmore
  | deliver n r =>
      simp only [World.step, Option.bind_eq_some_iff] at h
      obtain ⟨p, hp, pc, hpc, h⟩ := h
      -- only a client that awaits its response takes one
      obtain ⟨next, hawait⟩ :
          ∃ next, clientStmt (symbolicCrypto K uniqueId) pc = .awaitPacket next := by
        split at h
        · exact ⟨_, ‹_›⟩
        · cases h
      rw [hawait] at h
      obtain rfl := Option.some.inj h
      obtain ⟨hnone, rfl⟩ := (hi.client n p hp).awaiting hpc hawait
      rw [← setClient_reading_nothing]
      refine hi.setClient ?_ ?_ (fun m hm => by cases hm)
      · rw [hnone]
        exact .computing rfl rfl
      · intro r' hr'
        obtain rfl := Option.some.inj hr'
        exact hi.signedIn hok.2.2
  | request session p salt nRounds =>
      obtain rfl := Option.some.inj h
      have hgrow : Grows s { s with executions := s.executions ++
          [⟨session, freshCall s.executions.length p salt nRounds,
            some (.getPublicKey (freshCall s.executions.length p salt nRounds)), []⟩] } :=
        fun x hx => ⟨x, List.mem_append_left _ hx, rfl, List.Subset.refl _⟩
      refine ⟨hi.client, ?_, ?_, fun m hm => (hi.known m hm).mono hgrow,
        fun n p r hp hr => (hi.received n p r hp hr).mono hgrow⟩
      · intro x hx
        rcases List.mem_append.mp hx with hx | hx
        · exact hi.execution x hx
        · obtain rfl := List.mem_singleton.mp hx
          exact .running rfl rfl rfl rfl
      · intro x hx a ha
        rcases List.mem_append.mp hx with hx | hx
        · exact hi.salt x hx a ha
        · obtain rfl := List.mem_singleton.mp hx
          obtain ⟨b, -, rfl⟩ := List.mem_map.mp ha
          exact ⟨b, rfl⟩
  | server i =>
      simp only [World.step, Option.bind_eq_some_iff] at h
      obtain ⟨x, hx, pc, hpc, h⟩ := h
      have hold : x ∈ s.executions := List.mem_iff_getElem?.mpr ⟨i, hx⟩
      obtain ⟨x', more, rfl, hx', hcall, hsub, hmore⟩ := (hi.execution x hold).step hpc h
      exact hi.setExecution hx hx' hcall hsub hmore

theorem worldInv_of_reach (h : (network K uniqueId).Reach (Deducible K) s) :
    WorldInv (symbolicCrypto K uniqueId) s := by
  induction h with
  | start h0 =>
      rw [h0]
      exact worldInv_init
  | next _ hok hs ih => exact ih.step hok hs

/-! ## What an accepted response says -/

/-- An installed cipher is the one the client derives from its response. -/
theorem WorldInv.installed {n : Nat} {p : ClientSession} {r : SymResponse} {e : SymCipher}
    (hi : WorldInv C s) (hp : s.clients n = some p) (hr : p.response = some r)
    (he : p.installed = some e) : clientCipher C (.client n) r = some e := by
  have hshape := hi.client n p hp
  cases hshape with
  | installed hcipher =>
      obtain rfl := Option.some.inj hr
      obtain rfl := Option.some.inj he
      exact hcipher
  | returned hcipher =>
      obtain rfl := Option.some.inj hr
      obtain rfl := Option.some.inj he
      exact hcipher
  | _ => cases he

/-- The bytes under the signature of an accepted response are those of a
response that some call sent. -/
theorem WorldInv.accepted {n : Nat} {r : SymResponse} {e : SymCipher}
    (hi : WorldInv (symbolicCrypto K uniqueId) s)
    (h : Accepted (symbolicCrypto K uniqueId) s n r e) :
    ∃ x ∈ s.executions, Packet.response (x.answer (symbolicCrypto K uniqueId)) ∈ x.sent ∧
      r.publicKey ++ r.salt = (x.answer (symbolicCrypto K uniqueId)).publicKey ++
        (x.answer (symbolicCrypto K uniqueId)).salt := by
  obtain ⟨p, hp, hr, hverify, -⟩ := h
  have hsig : r.signature = [.sig (r.getHash (symbolicCrypto K uniqueId))] :=
    of_decide_eq_true hverify
  obtain ⟨x, hx, hsent, hhash⟩ := hi.received n p r hp hr (r.getHash (symbolicCrypto K uniqueId))
    (by rw [hsig]; exact List.mem_singleton.mpr rfl)
  exact ⟨x, hx, hsent, List.append_cancel_right hhash⟩

/-- Two responses with the same key, the same salt and the same round count
give one cipher, whatever else they carry. -/
theorem clientCipher_congr {dh : Owner} {r r' : SymResponse} (hkey : r.publicKey = r'.publicKey)
    (hsalt : r.salt = r'.salt) (hrounds : UInt16.ofInt r.nRounds = UInt16.ofInt r'.nRounds) :
    clientCipher C dh r = clientCipher C dh r' := by
  unfold clientCipher makeCipher
  rw [hkey, hsalt, hrounds]

/-- **What an accepted response says.** Some call of the handler signed and
sent the key and the salt that the client accepted, as one string. If the
salt has its eight bytes, both are the call's own; if moreover the call ran
on this client's request and the round count is the one it sent, the call
and the client compute one cipher. No two clients match one call. -/
theorem accepted_response_signed (h : (network K uniqueId).Reach (Deducible K) s) :
    (∀ n r e, Accepted (symbolicCrypto K uniqueId) s n r e →
      ∃ x ∈ s.executions, ∃ sent, Packet.response sent ∈ x.sent ∧
        sent = serverResponse (symbolicCrypto K uniqueId) x.call.choice ∧
        r.publicKey ++ r.salt = sent.publicKey ++ sent.salt ∧
        (r.salt.length = 8 → r.publicKey = sent.publicKey ∧ r.salt = sent.salt ∧
          (x.call.request.publicKey = [.pub (.client n)] →
            UInt16.ofInt r.nRounds = UInt16.ofInt sent.nRounds →
            Matches (symbolicCrypto K uniqueId) s n x))) ∧
    ∀ n n' x, x ∈ s.executions → Matches (symbolicCrypto K uniqueId) s n x →
      Matches (symbolicCrypto K uniqueId) s n' x → n = n' := by
  have hi : WorldInv (symbolicCrypto K uniqueId) s := worldInv_of_reach h
  constructor
  · intro n r e hacc
    obtain ⟨x, hx, hsent, hbytes⟩ := hi.accepted hacc
    refine ⟨x, hx, _, hsent, rfl, hbytes, fun hlength => ?_⟩
    have hlen : r.salt.length = (x.answer (symbolicCrypto K uniqueId)).salt.length :=
      hlength.trans x.call.choice.salt_length.symm
    obtain ⟨hkey, hsalt⟩ := List.append_inj' hbytes hlen
    refine ⟨hkey, hsalt, fun hown hrounds => ?_⟩
    obtain ⟨p, hp, hr, -, he⟩ := hacc
    refine ⟨hown, p, e, hp, he, ?_⟩
    have hcall : (⟨⟨[.pub (.client n)]⟩, x.call.choice⟩ : ServerCall Atom Owner Unit) = x.call := by
      rw [← hown]
    calc
      serverCipher (symbolicCrypto K uniqueId) x.call
          = clientCipher (symbolicCrypto K uniqueId) (.client n)
              (x.answer (symbolicCrypto K uniqueId)) := by
            rw [← hcall]
            exact (clientCipher_serverResponse (symbolicCrypto_lawful K uniqueId) _ _).symm
      _ = clientCipher (symbolicCrypto K uniqueId) (.client n) r :=
            (clientCipher_congr hkey hsalt hrounds).symm
      _ = some e := hi.installed hp hr he
  · intro n n' x _ hn hn'
    have hkeys : [Atom.pub (.client n)] = [Atom.pub (.client n')] := hn.1.symm.trans hn'.1
    exact Owner.client.inj (Atom.pub.inj (List.cons.inj hkeys).1)

/-! ## Two runs -/

/-- The reader that accepts a key and nothing else. -/
def strictReader : KeyReader where
  parse
    | [.pub o] => some o
    | _ => none
  parse_pub _ := rfl

/-- The library of the two runs. -/
abbrev strictCrypto : Crypto Atom Owner Unit (List Atom) := symbolicCrypto strictReader [1, 0, 0, 0]

/-- The salt that the server draws in the two runs. -/
def drawnSalt : { b : List UInt8 // b.length = 8 } := ⟨[1, 2, 3, 4, 5, 6, 7, 8], rfl⟩

/-- The response that the server's first call makes to `p`. -/
def firstResponse (p : SymRequest) : SymResponse :=
  serverResponse strictCrypto (freshCall 0 p drawnSalt 20).choice

/-- Client `0` sends its request, the server answers `p`, and the answer is
forwarded to the client, which runs up to its echo. -/
def answering (p : SymRequest) : List Move :=
  [.start 0, .client 0, .client 0, .request 7 p drawnSalt 20] ++ List.replicate 8 (.server 0) ++
    [.deliver 0 (firstResponse p)] ++ List.replicate 6 (.client 0)

/-- Client `0` was given the response to `p` and has installed a cipher. -/
def hasInstalled (p : SymRequest) (s : World) : Bool :=
  (s.clients 0).any fun c => c.installed.isSome && c.response = some (firstResponse p)

theorem accepted_of_hasInstalled {p : SymRequest} (h : hasInstalled p s = true) :
    ∃ e, Accepted strictCrypto s 0 (firstResponse p) e := by
  obtain ⟨c, hc, hin⟩ := (Option.any_eq_true _ _).mp h
  obtain ⟨hinstalled, hresp⟩ := Bool.and_eq_true_iff.mp hin
  obtain ⟨e, he⟩ := Option.isSome_iff_exists.mp hinstalled
  exact ⟨e, c, hc, of_decide_eq_true hresp,
    verifyHash_serverResponse (symbolicCrypto_lawful strictReader [1, 0, 0, 0]) _, he⟩

/-- The attacker asks with a key of its own and forwards the answer to the
client. The client accepts it, and no call ran on the client's request. -/
theorem forwarded_response_accepted :
    ∃ s, (network strictReader [1, 0, 0, 0]).Reach (Deducible strictReader) s ∧
      ¬ SessionBinding strictCrypto s := by
  obtain ⟨s, hs, hend⟩ := Machine.Reach.exists_run (m := network strictReader [1, 0, 0, 0])
    (answering ⟨[.pub (.attacker 0)]⟩)
    (fun s => hasInstalled ⟨[.pub (.attacker 0)]⟩ s &&
      s.executions.all fun x => x.call.request.publicKey ≠ [.pub (.client 0)])
    (.start rfl) (by decide +kernel : Machine.Meets _ Forwarded _ _) (by decide +kernel)
  obtain ⟨hinstalled, hforeign⟩ := Bool.and_eq_true_iff.mp hend
  refine ⟨s, hs.mono fun _ _ hok => hok.deducible strictReader, fun hbound => ?_⟩
  obtain ⟨e, hacc⟩ := accepted_of_hasInstalled hinstalled
  obtain ⟨x, hx, hown, -⟩ := hbound.1 0 _ e hacc
  exact of_decide_eq_true (List.all_eq_true.mp hforeign x hx) hown

/-- The client's own request, answered. -/
theorem accepted_response_signed_once :
    ∃ s e, (network strictReader [1, 0, 0, 0]).Reach (Deducible strictReader) s ∧
      Accepted strictCrypto s 0 (firstResponse ⟨[.pub (.client 0)]⟩) e ∧
      ∃ x ∈ s.executions, ∃ sent, Packet.response sent ∈ x.sent ∧
        (firstResponse ⟨[.pub (.client 0)]⟩).publicKey = sent.publicKey ∧
        (firstResponse ⟨[.pub (.client 0)]⟩).salt = sent.salt := by
  obtain ⟨s, hs, hend⟩ := Machine.Reach.exists_run (m := network strictReader [1, 0, 0, 0])
    (answering ⟨[.pub (.client 0)]⟩) (hasInstalled ⟨[.pub (.client 0)]⟩)
    (.start rfl) (by decide +kernel : Machine.Meets _ Forwarded _ _) (by decide +kernel)
  have hreach := hs.mono fun _ _ hok => hok.deducible strictReader
  obtain ⟨e, hacc⟩ := accepted_of_hasInstalled hend
  obtain ⟨x, hx, sent, hsent, -, -, height⟩ := (accepted_response_signed hreach).1 0 _ e hacc
  obtain ⟨hkey, hsalt, -⟩ := height rfl
  exact ⟨s, e, hreach, hacc, x, hx, sent, hsent, hkey, hsalt⟩

end PacketDistribution.Session
