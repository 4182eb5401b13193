/-
PacketDistribution.Mql.Common — the primitives of the `mql` records and
their three serializers: the archive's own primitives, `MQL_DateTime`
through `uint64_t` milliseconds, and every `enum class` through `int`.

An archive of Boost.Serialization is a stream of `Token`s. A `double` is
kept as its 64 bits, which nothing looks into. An `enum class` without an
explicit underlying type is an `int`, and any `int` is one of its values,
so the thirteen enumerations are one structure over their name.
-/
import PacketDistribution.Lib.Archive
import PacketDistribution.Lib.Numeral

namespace PacketDistribution.Mql

open PacketDistribution.Lib

/-- An opaque `double`. -/
structure Double where
  bits : UInt64
  deriving DecidableEq, Repr

/-- One primitive of an archive, with its type. -/
inductive Token where
  | bool (v : Bool)
  | int (v : Int32)
  | int64 (v : Int64)
  | uint64 (v : UInt64)
  | double (v : Double)
  | string (v : StdString)
  deriving DecidableEq

/-! ## Primitives of the archive -/

def Token.bool? : Token → Option Bool
  | .bool v => some v
  | _ => none

def Token.int? : Token → Option Int32
  | .int v => some v
  | _ => none

def Token.int64? : Token → Option Int64
  | .int64 v => some v
  | _ => none

def Token.uint64? : Token → Option UInt64
  | .uint64 v => some v
  | _ => none

def Token.double? : Token → Option Double
  | .double v => some v
  | _ => none

def Token.string? : Token → Option StdString
  | .string v => some v
  | _ => none

instance : Archivable Token Bool := .primitive .bool Token.bool? fun _ => rfl
instance : Archivable Token Int32 := .primitive .int Token.int? fun _ => rfl
instance : Archivable Token Int64 := .primitive .int64 Token.int64? fun _ => rfl
instance : Archivable Token UInt64 := .primitive .uint64 Token.uint64? fun _ => rfl
instance : Archivable Token Double := .primitive .double Token.double? fun _ => rfl
instance : Archivable Token StdString := .primitive .string Token.string? fun _ => rfl

instance : Exact Token Bool :=
  .primitive .bool Token.bool? (fun _ => rfl) fun t v h => by cases t <;> cases h; rfl

instance : Exact Token Int32 :=
  .primitive .int Token.int? (fun _ => rfl) fun t v h => by cases t <;> cases h; rfl

instance : Exact Token Int64 :=
  .primitive .int64 Token.int64? (fun _ => rfl) fun t v h => by cases t <;> cases h; rfl

instance : Exact Token UInt64 :=
  .primitive .uint64 Token.uint64? (fun _ => rfl) fun t v h => by cases t <;> cases h; rfl

instance : Exact Token Double :=
  .primitive .double Token.double? (fun _ => rfl) fun t v h => by cases t <;> cases h; rfl

instance : Exact Token StdString :=
  .primitive .string Token.string? (fun _ => rfl) fun t v h => by cases t <;> cases h; rfl

/-! ## Time points -/

/-- `MQL_DateTime`: a signed 64-bit count of milliseconds. -/
structure MqlDateTime where
  count : Int64
  deriving DecidableEq

/-- `uint64_t uint_time = time_since_epoch().count()`, modulo `2^64`. -/
def MqlDateTime.toUintTime (t : MqlDateTime) : UInt64 := t.count.toUInt64

/-- `MQL_DateTime(std::chrono::milliseconds(uint_time))`, again modulo `2^64`. -/
def MqlDateTime.ofUintTime (uintTime : UInt64) : MqlDateTime := ⟨uintTime.toInt64⟩

/-- No time point is lost, not even one before 1970. -/
theorem MqlDateTime.ofUintTime_toUintTime (t : MqlDateTime) : ofUintTime t.toUintTime = t := by
  cases t
  simp [ofUintTime, toUintTime]

theorem MqlDateTime.toUintTime_ofUintTime (u : UInt64) : (ofUintTime u).toUintTime = u := by
  simp [ofUintTime, toUintTime]

instance : Archivable Token MqlDateTime :=
  .via MqlDateTime.toUintTime MqlDateTime.ofUintTime
    fun x _ => MqlDateTime.ofUintTime_toUintTime x

instance : Exact Token MqlDateTime :=
  .via MqlDateTime.toUintTime MqlDateTime.ofUintTime
    (fun x _ => MqlDateTime.ofUintTime_toUintTime x) MqlDateTime.toUintTime_ofUintTime

/-! ## Enumerations -/

/-- The enumerations `MQL_DECLARE_ENUM_SERIALIZE` is applied to. -/
inductive EnumName where
  | accountTradeMode
  | accountStopOutMode
  | accountMarginMode
  | orderType
  | orderState
  | orderTypeFilling
  | orderTypeTime
  | orderReason
  | positionType
  | positionReason
  | dealType
  | dealEntry
  | dealReason
  deriving DecidableEq

/-- A value of an `enum class`: any `int`. -/
structure MqlEnum (name : EnumName) where
  value : Int32
  deriving DecidableEq

abbrev EnumAccountTradeMode := MqlEnum .accountTradeMode
abbrev EnumAccountStopOutMode := MqlEnum .accountStopOutMode
abbrev EnumAccountMarginMode := MqlEnum .accountMarginMode
abbrev EnumOrderType := MqlEnum .orderType
abbrev EnumOrderState := MqlEnum .orderState
abbrev EnumOrderTypeFilling := MqlEnum .orderTypeFilling
abbrev EnumOrderTypeTime := MqlEnum .orderTypeTime
abbrev EnumOrderReason := MqlEnum .orderReason
abbrev EnumPositionType := MqlEnum .positionType
abbrev EnumPositionReason := MqlEnum .positionReason
abbrev EnumDealType := MqlEnum .dealType
abbrev EnumDealEntry := MqlEnum .dealEntry
abbrev EnumDealReason := MqlEnum .dealReason

/-- `MQL_DECLARE_ENUM_SERIALIZE`: the enum travels as `int t`. -/
instance (name : EnumName) : Archivable Token (MqlEnum name) :=
  .via MqlEnum.value MqlEnum.mk fun _ _ => rfl

instance (name : EnumName) : Exact Token (MqlEnum name) :=
  .via MqlEnum.value MqlEnum.mk (fun _ _ => rfl) fun _ => rfl

/-! ## Member lists -/

/-- `ar &member;` — one line of a `serialize` function. The same line saves
and loads. `ar &base_object<Base>(*this);` is the case of a base class. -/
abbrev amp {S α : Type} [Archivable Token α] (get : S → α) (set : S → α → S) :
    Member Token S :=
  ⟨α, get, set⟩

end PacketDistribution.Mql
