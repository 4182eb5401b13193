/-
PacketDistribution.Session.LogTheorems — whoever reads the log of one end and
the wire has the cipher.

* `readHex_eq_some_iff`: `bytes_to_hex_str` loses nothing, and what it writes
  is read back in one way.
* `log_discloses_cipher`: in every run, an end that has a cipher has logged
  its key before, and the key with the response on the wire is the cipher.
-/
import PacketDistribution.Session.AgreementTheorems
import PacketDistribution.Session.Log

namespace PacketDistribution.Session

open PacketDistribution.Lib
open PacketDistribution.Packets

/-! ## Reading hexadecimal digits -/

/-- The half byte a digit stands for. -/
def halfOf (c : Char) : Option UInt8 :=
  if c ∈ hexValues then some (UInt8.ofNat (hexValues.idxOf c)) else none

/-- The bytes a text of digits stands for. -/
def readHex : StdString → Option (List UInt8)
  | [] => some []
  | [_] => none
  | high :: low :: rest => do
      let h ← halfOf high
      let l ← halfOf low
      let bytes ← readHex rest
      return (h <<< 4 ||| l) :: bytes

/-- Two digits that can be read are the digits of the byte. -/
theorem byte_digits (val : UInt8) :
    halfOf (hexDigit (val >>> 4)) = some (val >>> 4) ∧
      halfOf (hexDigit (val &&& 0xF)) = some (val &&& 0xF) ∧
        (val >>> 4) <<< 4 ||| (val &&& 0xF) = val := by
  have hall : ∀ n < 256,
      halfOf (hexDigit (UInt8.ofNat n >>> 4)) = some (UInt8.ofNat n >>> 4) ∧
        halfOf (hexDigit (UInt8.ofNat n &&& 0xF)) = some (UInt8.ofNat n &&& 0xF) ∧
          (UInt8.ofNat n >>> 4) <<< 4 ||| (UInt8.ofNat n &&& 0xF) = UInt8.ofNat n := by
    decide +kernel
  have hval := hall val.toNat val.toNat_lt
  rwa [UInt8.ofNat_toNat] at hval

theorem readHex_bytesToHexStr (bytes : List UInt8) : readHex (bytesToHexStr bytes) = some bytes := by
  induction bytes with
  | nil => rfl
  | cons val bytes ih =>
      obtain ⟨hhigh, hlow, hval⟩ := byte_digits val
      have hrest : bytesToHexStr (val :: bytes) =
          hexDigit (val >>> 4) :: hexDigit (val &&& 0xF) :: bytesToHexStr bytes := rfl
      simp [hrest, readHex, hhigh, hlow, ih, hval]

/-- A character that stands for a half byte is the digit of it. -/
theorem halfOf_eq_some {c : Char} {v : UInt8} (h : halfOf c = some v) :
    ∃ i < 16, v = UInt8.ofNat i ∧ c = hexDigit (UInt8.ofNat i) := by
  have hall : hexValues.all (fun c => hexValues.idxOf c < 16 ∧
      c = hexDigit (UInt8.ofNat (hexValues.idxOf c))) = true := by decide
  by_cases hc : c ∈ hexValues
  · rw [halfOf, if_pos hc] at h
    obtain ⟨hlt, hdigit⟩ := of_decide_eq_true (List.all_eq_true.mp hall c hc)
    exact ⟨hexValues.idxOf c, hlt, (Option.some.inj h).symm, hdigit⟩
  · rw [halfOf, if_neg hc] at h
    cases h

/-- The digits of what two characters stand for. -/
theorem digits_byte {high low : Char} {h l : UInt8} (hhigh : halfOf high = some h)
    (hlow : halfOf low = some l) :
    hexDigit ((h <<< 4 ||| l) >>> 4) = high ∧ hexDigit ((h <<< 4 ||| l) &&& 0xF) = low := by
  have hall : ∀ i < 16, ∀ j < 16,
      hexDigit ((UInt8.ofNat i <<< 4 ||| UInt8.ofNat j) >>> 4) = hexDigit (UInt8.ofNat i) ∧
        hexDigit ((UInt8.ofNat i <<< 4 ||| UInt8.ofNat j) &&& 0xF) = hexDigit (UInt8.ofNat j) := by
    decide +kernel
  obtain ⟨i, hi, rfl, rfl⟩ := halfOf_eq_some hhigh
  obtain ⟨j, hj, rfl, rfl⟩ := halfOf_eq_some hlow
  exact hall i hi j hj

/-- A text is read as some bytes exactly if it is what `bytes_to_hex_str`
writes of them. -/
theorem readHex_eq_some_iff {s : StdString} {bytes : List UInt8} :
    readHex s = some bytes ↔ s = bytesToHexStr bytes := by
  constructor
  · intro h
    induction s using readHex.induct generalizing bytes with
    | case1 =>
        obtain rfl := Option.some.inj h
        rfl
    | case2 c => cases h
    | case3 high low rest ih =>
        simp only [readHex, Option.bind_eq_bind, Option.bind_eq_some_iff, Option.pure_def] at h
        obtain ⟨hb, hhigh, lb, hlow, tail, hrest, h⟩ := h
        obtain rfl := Option.some.inj h
        obtain ⟨hdigit, hdigit'⟩ := digits_byte hhigh hlow
        rw [ih hrest]
        show _ = hexDigit _ :: hexDigit _ :: bytesToHexStr tail
        rw [hdigit, hdigit']
  · rintro rfl
    exact readHex_bytesToHexStr bytes

/-! ## What the lines show -/

/-- The key in a line, if it is a key line. -/
def keyOfLine (line : StdString) : Option Digest256 :=
  if keyText <+: line then
    (readHex (line.drop keyText.length)).bind fun bytes =>
      if h : bytes.length = 32 then some ⟨bytes, h⟩ else none
  else none

/-- The cipher that a line shows to whoever has seen the response. -/
def cipherOfLine (r : DHKeyExchangeResponsePacket UInt8) (line : StdString) :
    Option (AES256 UInt8 Digest256) :=
  (keyOfLine line).map (makeCipher r)

theorem keyOfLine_keyLine (key : Digest256) : keyOfLine (keyLine key) = some key := by
  have hprefix : keyText <+: keyLine key := List.prefix_append _ _
  rw [keyOfLine, if_pos hprefix, keyLine, List.drop_left, readHex_bytesToHexStr, Option.bind_some,
    dif_pos key.property]

variable {Secret Seed : Type} {C : Crypto UInt8 Secret Seed Digest256} {dh : Secret}
  {s t : Connection UInt8 Secret Seed Digest256} {act : Action UInt8 Secret Seed}

/-! ## The keys that have been logged -/

/-- The key of a call that has logged it. -/
def ServerPc.loggedKey : ServerPc UInt8 Secret Seed Digest256 → Option Digest256
  | .makeCipher _ sharedKey => some sharedKey
  | .setupEncryption e => some e.key
  | _ => none

def ClientPc.loggedKey : ClientPc UInt8 Secret Digest256 → Option Digest256
  | .setupEncryption e => some e.key
  | _ => none

/-- Where a statement leads its call. -/
def Effect.LeadsTo {Pc : Type} (next : Pc) : Effect UInt8 Digest256 Pc → Prop
  | .go pc => pc = next
  | .sendPacket _ pc => pc = some next
  | .setupEncryption _ pc => pc = some next
  | .destroy pc => pc = next
  | .awaitPacket pc => ∃ r, pc r = next
  | .fail _ => False

/-- The handler logs the key in the step to the control points that hold it. -/
theorem serverStmt_loggedKey {pc next : ServerPc UInt8 Secret Seed Digest256} {key : Digest256}
    (hnext : (serverStmt C pc).LeadsTo next) (hkey : next.loggedKey = some key) :
    pc.loggedKey = some key ∨ pc.logLine = some (keyLine key) := by
  cases pc with
  | getSharedSecret call r =>
      simp only [serverStmt] at hnext
      split at hnext
      · cases hnext
      · obtain rfl := hnext
        cases hkey
  | sendPacket r sharedKey =>
      obtain rfl := Option.some.inj hnext
      obtain rfl := Option.some.inj hkey
      exact .inr rfl
  | makeCipher r sharedKey =>
      obtain rfl := hnext
      exact .inl hkey
  | setupEncryption e => cases hnext
  | getPublicKey | fillSalt | drawRounds | signHash | appendSalt | computeHash =>
      obtain rfl := hnext
      cases hkey

/-- The coroutine logs the key in the step to the control point that holds it. -/
theorem clientStmt_loggedKey {pc next : ClientPc UInt8 Secret Digest256} {key : Digest256}
    (hnext : (clientStmt C pc).LeadsTo next) (hkey : next.loggedKey = some key) :
    pc.logLine C = some (keyLine key) := by
  cases pc with
  | awaitResponse dh =>
      obtain ⟨r, rfl⟩ := hnext
      cases hkey
  | verifyHash dh r =>
      simp only [clientStmt] at hnext
      split at hnext <;> obtain rfl := hnext <;> cases hkey
  | getSharedSecret dh r =>
      simp only [clientStmt] at hnext
      split at hnext
      · cases hnext
      · obtain rfl := hnext
        cases hkey
  | sendRequest dh p =>
      obtain rfl := Option.some.inj hnext
      cases hkey
  | makeCipher r sharedKey =>
      obtain rfl := hnext
      obtain rfl := Option.some.inj hkey
      rfl
  | setupEncryption e =>
      obtain rfl := Option.some.inj hnext
      cases hkey
  | sendEcho => cases hnext
  | getPublicKey | appendSalt | computeHash =>
      obtain rfl := hnext
      cases hkey

theorem serverStmt_installs {pc : ServerPc UInt8 Secret Seed Digest256}
    {e : AES256 UInt8 Digest256} {n : Option (ServerPc UInt8 Secret Seed Digest256)}
    (h : serverStmt C pc = .setupEncryption e n) : pc.loggedKey = some e.key := by
  cases pc with
  | setupEncryption e' =>
      obtain ⟨rfl, -⟩ := Effect.setupEncryption.inj h
      rfl
  | getSharedSecret call r =>
      simp only [serverStmt] at h
      split at h <;> cases h
  | _ => cases h

theorem clientStmt_installs {pc : ClientPc UInt8 Secret Digest256}
    {e : AES256 UInt8 Digest256} {n : Option (ClientPc UInt8 Secret Digest256)}
    (h : clientStmt C pc = .setupEncryption e n) : pc.loggedKey = some e.key := by
  cases pc with
  | setupEncryption e' =>
      obtain ⟨rfl, -⟩ := Effect.setupEncryption.inj h
      rfl
  | verifyHash dh r =>
      simp only [clientStmt] at h
      split at h <;> cases h
  | getSharedSecret dh r =>
      simp only [clientStmt] at h
      split at h <;> cases h
  | _ => cases h

/-- A statement of a call moves that call alone, along its effect, and installs
what its effect says. -/
theorem perform_moves {Pc : Type} {at_ : End}
    {put : Connection UInt8 Secret Seed Digest256 → Option Pc →
      Connection UInt8 Secret Seed Digest256}
    {eff : Effect UInt8 Digest256 Pc} (h : s.perform at_ put eff = some t) :
    ∃ u next, t = put u next ∧ u.handlers = s.handlers ∧ u.coroutine = s.coroutine ∧
      (∀ pc, next = some pc → eff.LeadsTo pc) ∧
      ∀ at' e, (u.endpoint at').cipher = some e →
        (s.endpoint at').cipher = some e ∨ at' = at_ ∧ ∃ n, eff = .setupEncryption e n := by
  cases eff with
  | go next =>
      obtain rfl := Option.some.inj h
      exact ⟨s, some next, rfl, rfl, rfl, fun _ => Option.some.inj, fun _ _ => .inl⟩
  | sendPacket p next =>
      obtain rfl := Option.some.inj h
      refine ⟨s.sendPacket p at_, next, rfl, ?_, ?_, fun _ => id, fun at' e he => .inl ?_⟩
      · cases at_ <;> rfl
      · cases at_ <;> rfl
      · cases at_ <;> cases at' <;> exact he
  | setupEncryption e next =>
      obtain rfl := Option.some.inj h
      refine ⟨s.setupEncryption e at_, next, rfl, ?_, ?_, fun _ => id, fun at' e' he => ?_⟩
      · cases at_ <;> rfl
      · cases at_ <;> rfl
      · by_cases hat : at' = at_
        · subst hat
          have hnew : e = e' := by cases at' <;> exact Option.some.inj he
          exact .inr ⟨rfl, next, hnew ▸ rfl⟩
        · left
          cases at_ <;> cases at' <;> first | exact absurd rfl hat | exact he
  | destroy next =>
      obtain rfl := Option.some.inj h
      refine ⟨s.note (.destroyed at_), some next, rfl, rfl, rfl, fun _ => Option.some.inj, ?_⟩
      intro at' e he
      cases at' <;> exact .inl he
  | awaitPacket next =>
      obtain ⟨r, rest, -, rfl⟩ := perform_awaitPacket.mp h
      refine ⟨{ s with inbox := rest }, some (next r), rfl, rfl, rfl,
        fun _ hpc => ⟨r, Option.some.inj hpc⟩, ?_⟩
      intro at' e he
      cases at' <;> exact .inl he
  | fail f =>
      obtain rfl := Option.some.inj h
      refine ⟨s.note (.failed at_ f), none, rfl, rfl, rfl, fun _ hpc => (by cases hpc), ?_⟩
      intro at' e he
      cases at' <;> exact .inl he

theorem mem_putCall {Pc : Type} {calls : List Pc} {n : Nat} {next : Option Pc} {pc : Pc}
    (h : pc ∈ Connection.putCall calls n next) : pc ∈ calls ∨ next = some pc := by
  cases next with
  | none => exact .inl (List.mem_of_mem_eraseIdx h)
  | some pc' =>
      obtain hmem | rfl := List.mem_or_eq_of_mem_set h
      · exact .inl hmem
      · exact .inr rfl

/-- Every key that a call holds to install it, and of every cipher that is
installed, has been logged at its end. -/
structure KeysLogged (s : Recorded Secret Seed) : Prop where
  handlers : ∀ pc ∈ s.connection.handlers, ∀ key, pc.loggedKey = some key →
    (.server, keyLine key) ∈ s.lines
  coroutine : ∀ pc, s.connection.coroutine = some pc → ∀ key, pc.loggedKey = some key →
    (.client, keyLine key) ∈ s.lines
  ciphers : ∀ at_ e, (s.connection.endpoint at_).cipher = some e →
    (at_, keyLine e.key) ∈ s.lines

variable {lines : List (End × StdString)}

theorem KeysLogged.of_coroutine (hk : KeysLogged ⟨s, lines⟩) (h : s.step C .coroutine = some t) :
    KeysLogged ⟨t, lines ++ (logged C s .coroutine).toList⟩ := by
  obtain ⟨pc, hpc, h⟩ := Option.bind_eq_some_iff.mp h
  obtain ⟨u, next, rfl, hhandlers, -, hnext, hciphers⟩ := perform_moves h
  have hline : ∀ key, pc.logLine C = some (keyLine key) →
      (End.client, keyLine key) ∈ (logged C s .coroutine).toList := by
    intro key hkey
    simp [logged, hpc, hkey]
  refine ⟨fun pc' hpc' key hkey => ?_, fun pc' hpc' key hkey => ?_, fun at' e he => ?_⟩
  · exact List.mem_append_left _ (hk.handlers pc' (hhandlers ▸ hpc') key hkey)
  · exact List.mem_append_right _ (hline key (clientStmt_loggedKey (hnext pc' hpc') hkey))
  · have hends : (u.endpoint at').cipher = some e := by
      cases at' <;> exact he
    obtain hold | ⟨rfl, n, heff⟩ := hciphers at' e hends
    · exact List.mem_append_left _ (hk.ciphers at' e hold)
    · exact List.mem_append_left _ (hk.coroutine pc hpc _ (clientStmt_installs heff))

theorem KeysLogged.of_handler (hk : KeysLogged ⟨s, lines⟩) {n : Nat}
    (h : s.step C (.handler n) = some t) :
    KeysLogged ⟨t, lines ++ (logged C s (.handler n)).toList⟩ := by
  obtain ⟨pc, hpc, h⟩ := Option.bind_eq_some_iff.mp h
  obtain ⟨u, next, rfl, hhandlers, hcoroutine, hnext, hciphers⟩ := perform_moves h
  have hmem := List.mem_of_getElem? hpc
  have hline : ∀ key, pc.logLine = some (keyLine key) →
      (End.server, keyLine key) ∈ (logged C s (.handler n)).toList := by
    intro key hkey
    simp [logged, hpc, hkey]
  refine ⟨fun pc' hpc' key hkey => ?_, fun pc' hpc' key hkey => ?_, fun at' e he => ?_⟩
  · obtain hold | hmoved := mem_putCall hpc'
    · exact List.mem_append_left _ (hk.handlers pc' (hhandlers ▸ hold) key hkey)
    · obtain hbefore | hnow := serverStmt_loggedKey (hnext pc' hmoved) hkey
      · exact List.mem_append_left _ (hk.handlers pc hmem key hbefore)
      · exact List.mem_append_right _ (hline key hnow)
  · exact List.mem_append_left _ (hk.coroutine pc' (hcoroutine ▸ hpc') key hkey)
  · have hends : (u.endpoint at').cipher = some e := by
      cases at' <;> exact he
    obtain hold | ⟨rfl, n, heff⟩ := hciphers at' e hends
    · exact List.mem_append_left _ (hk.ciphers at' e hold)
    · exact List.mem_append_left _ (hk.handlers pc hmem _ (serverStmt_installs heff))

theorem KeysLogged.of_echo (hk : KeysLogged ⟨s, lines⟩) {at_ : End} {n : Nat}
    (h : s.step C (.echo at_ n) = some t) : KeysLogged ⟨t, lines⟩ := by
  obtain ⟨pc, hpc, h⟩ := Option.bind_eq_some_iff.mp h
  obtain ⟨u, next, rfl, hhandlers, hcoroutine, -, hciphers⟩ := perform_moves h
  have hput : (u.putEcho n next at_).handlers = s.handlers ∧
      (u.putEcho n next at_).coroutine = s.coroutine := by
    cases at_ <;> exact ⟨hhandlers, hcoroutine⟩
  refine ⟨fun pc' hpc' => hk.handlers pc' (hput.1 ▸ hpc'),
    fun pc' hpc' => hk.coroutine pc' (hput.2 ▸ hpc'), fun at' e he => ?_⟩
  have hends : (u.endpoint at').cipher = some e := by
    cases at_ <;> cases at' <;> exact he
  obtain hold | ⟨-, n, heff⟩ := hciphers at' e hends
  · exact hk.ciphers at' e hold
  · exact absurd heff (echoStmt_ne_setupEncryption pc e n)

/-- An arrival starts at most one handler, at its first statement, and installs
nothing. -/
theorem deliver_starts {at_ : End} {c : ServerChoice UInt8 Secret Seed}
    (h : s.deliver at_ c = some t) :
    (t.handlers = s.handlers ∨ ∃ p, t.handlers = s.handlers ++ [.getPublicKey ⟨p, c⟩]) ∧
      t.coroutine = s.coroutine ∧ ∀ at', (t.endpoint at').cipher = (s.endpoint at').cipher := by
  unfold Connection.deliver at h
  split at h
  · cases h
  · rename_i m rest hin
    split at h
    · obtain rfl := Option.some.inj h
      cases at_ with
      | client =>
          cases m.packet with
          | request p => exact ⟨.inl rfl, rfl, fun at' => by cases at' <;> rfl⟩
          | response r => exact ⟨.inl rfl, rfl, fun at' => by cases at' <;> rfl⟩
          | echo p => exact ⟨.inl rfl, rfl, fun at' => by cases at' <;> rfl⟩
      | server =>
          cases m.packet with
          | request p => exact ⟨.inr ⟨p, rfl⟩, rfl, fun at' => by cases at' <;> rfl⟩
          | response r => exact ⟨.inl rfl, rfl, fun at' => by cases at' <;> rfl⟩
          | echo p => exact ⟨.inl rfl, rfl, fun at' => by cases at' <;> rfl⟩
    · obtain rfl := Option.some.inj h
      cases at_ <;> exact ⟨.inl rfl, rfl, fun at' => by cases at' <;> rfl⟩

theorem KeysLogged.of_arrive (hk : KeysLogged ⟨s, lines⟩) {at_ : End}
    {c : ServerChoice UInt8 Secret Seed} (h : s.step C (.arrive at_ c) = some t) :
    KeysLogged ⟨t, lines⟩ := by
  obtain ⟨hhandlers, hcoroutine, hciphers⟩ := deliver_starts h
  refine ⟨fun pc hpc key hkey => ?_, fun pc hpc => hk.coroutine pc (hcoroutine ▸ hpc),
    fun at' e he => hk.ciphers at' e (hciphers at' ▸ he)⟩
  obtain hsame | ⟨p, hnew⟩ := hhandlers
  · exact hk.handlers pc (hsame ▸ hpc) key hkey
  · -- the new call holds no key yet
    rw [hnew] at hpc
    obtain hold | hstarted := List.mem_append.mp hpc
    · exact hk.handlers pc hold key hkey
    · obtain rfl := List.mem_singleton.mp hstarted
      cases hkey

theorem keysLogged_of_reachable {s : Recorded Secret Seed} (h : (recording C dh).Reachable s) :
    KeysLogged s := by
  refine h.invariant ?_ ?_
  · rintro s rfl
    refine ⟨fun pc hpc => (by cases hpc), fun pc hpc key hkey => ?_, fun at_ e he => ?_⟩
    · obtain rfl := Option.some.inj hpc
      cases hkey
    · cases at_ <;> cases he
  · intro s act u hk _ hstep
    obtain ⟨t, ht, rfl⟩ := Option.map_eq_some_iff.mp hstep
    cases act with
    | coroutine => exact hk.of_coroutine ht
    | handler n => exact hk.of_handler ht
    | echo at_ n =>
        have hnone := hk.of_echo ht
        simpa [logged] using hnone
    | arrive at_ c =>
        have hnone := hk.of_arrive ht
        simpa [logged] using hnone

/-! ## The cipher behind a line -/

/-- An installed cipher comes from the exchange in the log. -/
theorem Phase.exchanged (hp : Phase C dh s) {at_ : End} {e : AES256 UInt8 Digest256}
    (he : (s.endpoint at_).cipher = some e) : Exchanged C dh e s.log := by
  cases hp with
  | answered _ hsv hcl hx =>
      cases at_ with
      | server => exact hsv.cipher he ▸ hx
      | client =>
          cases hcl with
          | installed =>
              obtain rfl := Option.some.inj he
              exact hx
          | _ => cases he
  | echoSent hsv hx =>
      cases at_ with
      | server => exact hsv.cipher he ▸ hx
      | client =>
          obtain rfl := Option.some.inj he
          exact hx
  | echoLost hsv hx =>
      cases at_ with
      | server => exact hsv.cipher he ▸ hx
      | client =>
          obtain rfl := Option.some.inj he
          exact hx
  | @rally e' at' b log hx =>
      have hlog : (rallying e' at' b log : Connection UInt8 Secret Seed Digest256).log = log := by
        cases at' <;> rfl
      rw [rallying_endpoint] at he
      rw [hlog]
      split at he <;> cases b <;>
      · obtain rfl := Option.some.inj he
        exact hx
  | _ => cases at_ <;> cases he

/-- In every run, whoever has seen the response, which is sent in plaintext,
and reads the log of an end that has a cipher, has the cipher. -/
theorem log_discloses_cipher (hC : C.Lawful) {s : Recorded Secret Seed}
    (h : (recording C dh).Reachable s) {at_ : End} {e : AES256 UInt8 Digest256}
    (he : (s.connection.endpoint at_).cipher = some e) :
    ∃ (c : ServerChoice UInt8 Secret Seed) (line : StdString),
      Event.sent .server ⟨none, .response (serverResponse C c)⟩ ∈ s.connection.log ∧
        (at_, line) ∈ s.lines ∧ cipherOfLine (serverResponse C c) line = some e := by
  have hreach : (connection C dh).Reachable s.connection := by
    refine h.simulation (fun s hs => hs ▸ rfl) fun s act t _ hstep => .inr ⟨act, ?_⟩
    obtain ⟨u, hu, rfl⟩ := Option.map_eq_some_iff.mp hstep
    exact hu
  obtain ⟨c, hcipher, -, hsent⟩ := (phase_of_reach hC hreach).exchanged he
  refine ⟨c, keyLine e.key, hsent, (keysLogged_of_reachable h).ciphers at_ e he, ?_⟩
  obtain ⟨sharedSecret, -, rfl⟩ := Option.map_eq_some_iff.mp hcipher
  rw [cipherOfLine, keyOfLine_keyLine]
  rfl

/-- An exchange up to the end of the server's handler. -/
theorem log_discloses_cipher_server :
    ∃ (s : Recorded Nat Unit) (e : AES256 UInt8 Digest256) (line : StdString),
      (recording smallCrypto 3).Reachable s ∧ s.connection.server.cipher = some e ∧
        (End.server, line) ∈ s.lines ∧
          ∃ c : ServerChoice UInt8 Nat Unit,
            cipherOfLine (serverResponse smallCrypto c) line = some e := by
  obtain ⟨s, hs, hend⟩ := Machine.Reach.exists_run
    (untilFirstEcho ++ List.replicate 2 (Action.handler 0))
    (fun s : Recorded Nat Unit => s.connection.server.cipher.isSome)
    (.start rfl : (recording smallCrypto 3).Reachable ⟨Connection.opened 3, []⟩)
    (.of_forall (fun _ _ _ => trivial) _) (by decide +kernel)
  obtain ⟨e, he⟩ := Option.isSome_iff_exists.mp hend
  obtain ⟨c, line, -, hline, hcipher⟩ :=
    @log_discloses_cipher Nat Unit smallCrypto 3 smallCrypto_lawful s hs .server e he
  exact ⟨s, e, line, hs, he, hline, c, hcipher⟩

end PacketDistribution.Session
