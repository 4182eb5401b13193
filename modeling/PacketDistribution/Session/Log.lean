/-
PacketDistribution.Session.Log — what the key exchange writes to the logs of
the two programs, and `bytes_to_hex_str` of `common/common.hpp`, which writes
the bytes in it.

`logLine` is the line that a step writes: a logging statement belongs to the
control point of the statement after it. Both programs log from level `debug`
or below, so every `spdlog::info` is written. The line of `process_echo` names
a received message and is left out.
-/
import PacketDistribution.Session.Connection

namespace PacketDistribution.Session

open PacketDistribution.Lib
open PacketDistribution.Packets

/-! ## `bytes_to_hex_str` -/

/-- `hex_values`. -/
def hexValues : List Char :=
  ['0', '1', '2', '3', '4', '5', '6', '7', '8', '9', 'a', 'b', 'c', 'd', 'e', 'f']

/-- The digit of a half byte. -/
def hexDigit (half : UInt8) : Char := hexValues.getD half.toNat '0'

/-- `bytes_to_hex_str`, of fewer than `2^31` bytes: the index is an `int`. -/
def bytesToHexStr (byteView : List UInt8) : StdString :=
  byteView.flatMap fun val : UInt8 => [hexDigit (val >>> 4), hexDigit (val &&& 0xF)]

/-! ## The lines -/

def secretText : StdString := "Computed shared secret: ".toList
def keyText : StdString := "Computed shared key: ".toList

/-- `"Computed shared key: {}"`. -/
def keyLine (sharedKey : Digest256) : StdString := keyText ++ bytesToHexStr sharedKey.val

variable {Secret Seed : Type}

/-- The logging statements of `encryption_handler_server`. The shared secret
is logged with the salt appended. -/
def ServerPc.logLine : ServerPc UInt8 Secret Seed Digest256 → Option StdString
  | .getPublicKey _ => some "Received encryption request packet".toList
  | .computeHash _ sharedSecret => some (secretText ++ bytesToHexStr sharedSecret)
  | .sendPacket _ sharedKey => some (keyLine sharedKey)
  | _ => none

/-- The logging statements of `setup_encryption_for_session`. The shared
secret is logged without the salt. -/
def ClientPc.logLine (C : Crypto UInt8 Secret Seed Digest256) :
    ClientPc UInt8 Secret Digest256 → Option StdString
  | .verifyHash _ r =>
      if C.verifyHash (r.getHash C) r.signature then none
      else some "encryption response packet has the wrong signature. Aborting connection.".toList
  | .appendSalt _ sharedSecret => some (secretText ++ bytesToHexStr sharedSecret)
  | .makeCipher _ sharedKey => some (keyLine sharedKey)
  | _ => none

/-- The line a step writes, with the end whose log it is in. -/
def logged (C : Crypto UInt8 Secret Seed Digest256) (s : Connection UInt8 Secret Seed Digest256) :
    Action UInt8 Secret Seed → Option (End × StdString)
  | .coroutine => (s.coroutine.bind (ClientPc.logLine C)).map fun line => (.client, line)
  | .handler n => (s.handlers[n]?.bind ServerPc.logLine).map fun line => (.server, line)
  | _ => none

/-- A connection and what has been logged about it. -/
structure Recorded (Secret Seed : Type) where
  connection : Connection UInt8 Secret Seed Digest256
  lines : List (End × StdString)

/-- The machine of one connection with its logs. -/
def recording (C : Crypto UInt8 Secret Seed Digest256) (dh : Secret) :
    Machine (Recorded Secret Seed) (Action UInt8 Secret Seed) where
  init s := s = ⟨Connection.opened dh, []⟩
  step s act := (s.connection.step C act).map fun t =>
    ⟨t, s.lines ++ (logged C s.connection act).toList⟩

end PacketDistribution.Session
