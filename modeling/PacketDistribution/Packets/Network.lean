/-
PacketDistribution.Packets.Network — `EchoPacket` and the two
`process_echo` handlers of `central_server/main.cpp` and
`client_test/main.cpp`, which have the same body.
-/
import PacketDistribution.Lib.Numeral

namespace PacketDistribution.Packets

open PacketDistribution.Lib

/-- `EchoPacket`. -/
@[ext]
structure EchoPacket where
  echoMessage : StdString
  deriving DecidableEq

/-- How `process_echo` can fail to produce its response: an exception of
`std::stoi`, or the signed overflow of `+ 1`, which is undefined. -/
inductive EchoFailure where
  | throws (e : StoiError)
  | overflows
  deriving DecidableEq

/-- The response of `process_echo`:
`std::to_string(std::stoi(echo->echo_message) + 1)`. -/
def processEcho (echo : EchoPacket) : Except EchoFailure EchoPacket :=
  match stoi echo.echoMessage with
  | .error e => .error (.throws e)
  | .ok v => if v = intMax then .error .overflows else .ok ⟨toStdString (v + 1)⟩

/-- The numeral of a natural number below `INT_MAX` is answered with the
numeral of its successor. -/
theorem processEcho_numeral {k : Nat} (hk : (k : Int) < intMax) :
    processEcho ⟨toStdString k⟩ = .ok ⟨toStdString ((k + 1 : Nat) : Int)⟩ := by
  have hmin : intMin ≤ (k : Int) := by unfold intMin; omega
  have hne : (k : Int) ≠ intMax := by omega
  unfold processEcho
  rw [stoi_toStdString hmin (by omega)]
  show (if (k : Int) = intMax then _ else _) = _
  rw [if_neg hne, ← Int.natCast_succ]

/-- The numeral of `INT_MAX` is read, and its successor overflows. -/
theorem processEcho_intMax : processEcho ⟨toStdString intMax⟩ = .error .overflows := by
  unfold processEcho
  rw [stoi_toStdString (by decide) (by decide)]
  simp

/-- A response is produced exactly for a value below the largest `int`. -/
theorem processEcho_eq_ok_iff {text : StdString} {response : EchoPacket} :
    processEcho ⟨text⟩ = .ok response ↔
      ∃ v, stoi text = .ok v ∧ v < intMax ∧ response = ⟨toStdString (v + 1)⟩ := by
  unfold processEcho
  cases hv : stoi text with
  | error e => simp
  | ok v =>
    have hle := (stoi_eq_ok_iff.mp hv).2.2
    by_cases hmax : v = intMax
    · simp [hmax]
    · have hlt : v < intMax := by omega
      simp [hmax, hlt, eq_comm]

end PacketDistribution.Packets
