/-
PacketDistribution.Mql.SerializeTheorems — which `mql` records survive
their archives.

The records of `Common`, `Mql4.FullAccountInfo`, `Mql5.PositionInfo` and
`Mql5.DealInfo` are exact: their member lists are complete and settled, and
sequences of them share one stream (`records_stream_exact`).

Four records are not. `Mql5.OrderInfo` and `Mql4.OrderInfo` leave members
out of the list, `Mql5.AccountInfoInteger` and `Mql5.AccountInfoDouble`
leave out the base class. For these `copy` says which members of the
destination survive a load, and the round trip holds exactly when the
destination happened to agree with the source on them.
-/
import PacketDistribution.Mql.AccountInfo
import PacketDistribution.Mql.TradeInfo

namespace PacketDistribution.Mql

open PacketDistribution.Lib
open PacketDistribution.Lib.Archivable

/-! ## Exact records -/

namespace Common

instance : Exact Token AccountInfoDouble := .record
instance : Exact Token AccountInfoString := .record
instance : Exact Token AccountInfoInteger := .record
instance : Exact Token AccountInfoDoubleMinimal := .record
instance : Exact Token AccountInfoIntegerMinimal := .record
instance : Exact Token AccountInfoMinimal := .record

end Common

namespace Mql4

instance : Exact Token FullAccountInfo := .record

end Mql4

namespace Mql5

instance : Exact Token PositionInfoInteger := .record
instance : Exact Token PositionInfoDouble := .record
instance : Exact Token PositionInfoString := .record
instance : Exact Token PositionInfo := .record
instance : Exact Token DealInfoInteger := .record
instance : Exact Token DealInfoDouble := .record
instance : Exact Token DealInfoString := .record
instance : Exact Token DealInfo := .record

end Mql5

/-! ## Sequences of records in one archive -/

/-- The record types that are sent whole. -/
inductive RecordKind where
  | positionInfo
  | dealInfo
  | fullAccountInfo
  | accountInfoMinimal
  deriving DecidableEq

/-- The record type of a kind. -/
abbrev RecordKind.type : RecordKind → Type
  | .positionInfo => Mql5.PositionInfo
  | .dealInfo => Mql5.DealInfo
  | .fullAccountInfo => Mql4.FullAccountInfo
  | .accountInfoMinimal => Common.AccountInfoMinimal

instance : ∀ k : RecordKind, Archivable Token k.type
  | .positionInfo => inferInstanceAs (Archivable Token Mql5.PositionInfo)
  | .dealInfo => inferInstanceAs (Archivable Token Mql5.DealInfo)
  | .fullAccountInfo => inferInstanceAs (Archivable Token Mql4.FullAccountInfo)
  | .accountInfoMinimal => inferInstanceAs (Archivable Token Common.AccountInfoMinimal)

instance : ∀ k : RecordKind, Exact Token k.type
  | .positionInfo => inferInstanceAs (Exact Token Mql5.PositionInfo)
  | .dealInfo => inferInstanceAs (Exact Token Mql5.DealInfo)
  | .fullAccountInfo => inferInstanceAs (Exact Token Mql4.FullAccountInfo)
  | .accountInfoMinimal => inferInstanceAs (Exact Token Common.AccountInfoMinimal)

/-- A record of any kind. -/
abbrev Record := Σ k : RecordKind, k.type

/-- **Stream round trip.** A mixed sequence of records comes back from its
archive, whatever the destinations held, and the tokens after it are left
alone; a stream that loads begins with exactly the archive of the sequence
it loaded to. -/
theorem records_stream_exact :
    (∀ (xs ys : List Record) (rest : List Token),
      ys.map (·.1) = xs.map (·.1) →
        loadAll ys (saveAll xs ++ rest) = some (xs, rest)) ∧
    (∀ (ys zs : List Record) (ts rest : List Token),
      loadAll ys ts = some (zs, rest) →
        ts = saveAll zs ++ rest ∧ zs.map (·.1) = ys.map (·.1)) :=
  ⟨fun xs ys rest h => loadAll_saveAll xs ys rest h,
    fun _ _ _ _ h => saveAll_loadAll h⟩

/-- An account record of a live account. -/
def liveAccount : Common.AccountInfoMinimal where
  accountLogin := 5001
  accountLeverage := 100
  balance := ⟨4652007308841189376⟩
  profit := ⟨0⟩
  equity := ⟨4652007308841189376⟩
  margin := ⟨0⟩
  marginFree := ⟨4652007308841189376⟩
  accountName := ['A', 'n', 'n']
  tradeServerName := ['d', 'e', 'm', 'o']
  accountCurrency := ['U', 'S', 'D']
  accountCompany := []

/-- A receiver's object before its first load. -/
def blankAccount : Common.AccountInfoMinimal where
  accountLogin := 0
  accountLeverage := 0
  balance := ⟨0⟩
  profit := ⟨0⟩
  equity := ⟨0⟩
  margin := ⟨0⟩
  marginFree := ⟨0⟩
  accountName := []
  tradeServerName := []
  accountCurrency := []
  accountCompany := []

/-- A deal imported from an old ledger: done in 1969, of a type no
enumerator has. -/
def ledgerDeal : Mql5.DealInfo where
  ticket := 7
  order := 0
  time := ⟨-86400000⟩
  timeMsc := -86400000
  type := ⟨99⟩
  entry := ⟨-1⟩
  magic := 0
  reason := ⟨0⟩
  positionId := 7
  volume := ⟨4607182418800017408⟩
  price := ⟨4607632778762754458⟩
  commission := ⟨0⟩
  swap := ⟨0⟩
  profit := ⟨0⟩
  fee := ⟨0⟩
  stopLoss := ⟨0⟩
  takeProfit := ⟨0⟩
  symbol := ['X', 'A', 'U']
  comment := []
  externalId := ['1', '9', '6', '9']

/-- The stream the deal and the account arrive in, one more token behind
them. The time is a `uint64_t`, and the next record begins where the deal's
last string ends. -/
def ledgerTokens : List Token :=
  [ .int64 7, .int64 0, .uint64 18446744073623151616, .int64 (-86400000), .int 99, .int (-1),
    .int64 0, .int 0, .int64 7,
    .double ⟨4607182418800017408⟩, .double ⟨4607632778762754458⟩, .double ⟨0⟩, .double ⟨0⟩,
    .double ⟨0⟩, .double ⟨0⟩, .double ⟨0⟩, .double ⟨0⟩,
    .string ['X', 'A', 'U'], .string [], .string ['1', '9', '6', '9'],
    .int64 5001, .int64 100,
    .double ⟨4652007308841189376⟩, .double ⟨0⟩, .double ⟨4652007308841189376⟩, .double ⟨0⟩,
    .double ⟨4652007308841189376⟩,
    .string ['A', 'n', 'n'], .string ['d', 'e', 'm', 'o'], .string ['U', 'S', 'D'],
    .string [], .bool true ]

/-- A deal and an account through one archive, into objects that held
something else. -/
theorem records_stream_exact_ledger :
    let sent : List Record := [⟨.dealInfo, ledgerDeal⟩, ⟨.accountInfoMinimal, liveAccount⟩]
    let held : List Record :=
      [⟨.dealInfo, { ledgerDeal with ticket := 1, time := ⟨0⟩, type := ⟨0⟩, externalId := [] }⟩,
        ⟨.accountInfoMinimal, blankAccount⟩]
    loadAll held (saveAll sent ++ [Token.bool true]) = some (sent, [Token.bool true]) ∧
      ledgerTokens = saveAll sent ++ [Token.bool true] ∧ sent.map (·.1) = held.map (·.1) := by
  intro sent held
  exact ⟨records_stream_exact.1 sent held _ rfl,
    records_stream_exact.2 held sent ledgerTokens _ rfl⟩

/-! ## Records with a member left out -/

/-- Loading the archive of `x` into `y` gives `x` back, and `y`, taken as a
second value, shares its archive with `x` only when it is `x`. -/
def RoundTrips {α : Type} [Archivable Token α] (x y : α) : Prop :=
  load y (save x) = some (x, ([] : List Token)) ∧ (save x = save y → x = y)

/-- The round trip is a matter of `copy`, for every format under which an
object overwrites itself with itself. -/
theorem roundTrips_iff {α : Type} [Archivable Token α] {x y : α} (hself : copy y y = y) :
    RoundTrips x y ↔ copy x y = x := by
  constructor
  · intro h
    exact load_save_iff.mp h.1
  · intro h
    refine ⟨load_save_iff.mpr h, fun hsave => ?_⟩
    calc
      x = copy x y := h.symm
      _ = copy y y := copy_eq_of_save_eq hsave y
      _ = y := hself

/-- Where the archive shows no more than `copy` takes over, two values have one
archive only when `copy` makes no difference, in the one way or the other. -/
theorem eq_of_save_eq_iff {α : Type} [Archivable Token α] {x z : α}
    (hsave : save (copy x z) = save (τ := Token) x) (hself : copy z z = z) :
    (save (τ := Token) x = save z → x = z) ↔ copy x z = x ∨ copy x z ≠ z := by
  have hiff : save (τ := Token) x = save z ↔ copy x z = z := by
    constructor
    · intro h
      exact (copy_eq_of_save_eq h z).trans hself
    · intro h
      rw [← hsave, h]
  rw [hiff]
  by_cases hcopy : copy x z = z
  · simp [hcopy, eq_comm]
  · simp [hcopy]

namespace Mql5

/-- What a load of an order leaves in the destination: the filling type,
the lifetime type and the reason stay the receiver's. -/
theorem OrderInfo.copy_eq (x y : OrderInfo) :
    copy x y =
      { x with typeFilling := y.typeFilling, typeTime := y.typeTime, reason := y.reason } :=
  rfl

/-- The orders agree on the three members without a line. -/
def OrderInfo.Agree (x y : OrderInfo) : Prop :=
  y.typeFilling = x.typeFilling ∧ y.typeTime = x.typeTime ∧ y.reason = x.reason

/-- The orders agree on every other member. -/
def OrderInfo.AgreeArchived (x y : OrderInfo) : Prop :=
  { x with typeFilling := y.typeFilling, typeTime := y.typeTime, reason := y.reason } = y

theorem OrderInfo.copy_eq_self_iff (x y : OrderInfo) : copy x y = x ↔ x.Agree y := by
  rw [OrderInfo.copy_eq, OrderInfo.Agree]
  constructor
  · intro h
    exact ⟨congrArg (·.typeFilling) h, congrArg (·.typeTime) h, congrArg (·.reason) h⟩
  · rintro ⟨hfilling, htime, hreason⟩
    rw [hfilling, htime, hreason]

/-- **MQL5 orders** survive their archives exactly when the receiver's
object `y` already agrees on the three members without a line. The archive
tells an order from another one `z` exactly when the two agree on these three
or differ in one of the rest. -/
theorem OrderInfo.roundTrips_iff_agree (x y z : OrderInfo) :
    (load y (save x) = some (x, ([] : List Token)) ↔ x.Agree y) ∧
      ((save (τ := Token) x = save z → x = z) ↔ x.Agree z ∨ ¬ x.AgreeArchived z) ∧
      (RoundTrips x y ↔ x.Agree y) := by
  refine ⟨?_, ?_, ?_⟩
  · rw [load_save_iff, OrderInfo.copy_eq_self_iff]
  · rw [eq_of_save_eq_iff rfl rfl, OrderInfo.copy_eq_self_iff]
    exact Iff.rfl
  · rw [roundTrips_iff rfl, OrderInfo.copy_eq_self_iff]

/-- A filled market order an expert placed. -/
def expertOrder : OrderInfo where
  ticket := 1001
  timeSetup := ⟨1700000000000⟩
  type := ⟨0⟩
  state := ⟨4⟩
  timeExpiration := ⟨0⟩
  timeDone := ⟨1700000000250⟩
  timeSetupMsc := 1700000000000
  timeDoneMsc := 1700000000250
  typeFilling := ⟨1⟩
  typeTime := ⟨0⟩
  magic := 42
  reason := ⟨3⟩
  positionId := 77
  positionById := 0
  volumeInitial := ⟨4607182418800017408⟩
  volumeCurrent := ⟨0⟩
  priceOpen := ⟨4607632778762754458⟩
  stopLoss := ⟨0⟩
  takeProfit := ⟨0⟩
  priceCurrent := ⟨4607632778762754458⟩
  stopLimit := ⟨0⟩
  symbol := ['E', 'U', 'R', 'U', 'S', 'D']
  comment := []
  externalId := []

/-- The same order, placed by hand. -/
def clientOrder : OrderInfo := { expertOrder with reason := ⟨0⟩ }

/-- An expert's order loaded over a client's order stays a client's order,
and the two have one archive. -/
theorem OrderInfo.reason_lost :
    load clientOrder (save expertOrder) = some (clientOrder, ([] : List Token)) ∧
      save expertOrder = save clientOrder ∧ clientOrder ≠ expertOrder :=
  ⟨rfl, rfl, by decide⟩

/-- **MQL5 account records** survive their archives exactly when the
receiver's object already agrees on everything inherited. -/
theorem AccountInfo.load_save_iff_base (x y : AccountInfoInteger) (u v : AccountInfoDouble) :
    (load y (save x) = some (x, ([] : List Token)) ↔
      y.toAccountInfoInteger = x.toAccountInfoInteger) ∧
    (load v (save u) = some (u, ([] : List Token)) ↔
      v.toAccountInfoDouble = u.toAccountInfoDouble) := by
  have hcopy : copy x y = { x with toAccountInfoInteger := y.toAccountInfoInteger } := rfl
  have hcopy' : copy u v = { u with toAccountInfoDouble := v.toAccountInfoDouble } := rfl
  rw [load_save_iff, load_save_iff, hcopy, hcopy']
  constructor
  · exact ⟨fun h => congrArg (·.toAccountInfoInteger) h, fun h => by rw [h]⟩
  · exact ⟨fun h => congrArg (·.toAccountInfoDouble) h, fun h => by rw [h]⟩

/-- A real netting account. -/
def realAccount : AccountInfoInteger where
  accountLogin := 5001
  tradeMode := ⟨2⟩
  accountLeverage := 100
  limitOrders := 200
  marginSoMode := ⟨0⟩
  tradeAllowed := true
  expertTradeAllowed := true
  marginMode := ⟨0⟩
  currencyDigits := 2
  fifoClose := false
  hedgeAllowed := false

/-- The receiver's record of another, demo account. -/
def demoAccount : AccountInfoInteger :=
  { realAccount with accountLogin := 9, tradeMode := ⟨0⟩ }

/-- After the load the receiver still shows the demo account's login. -/
theorem AccountInfo.login_lost :
    load demoAccount (save realAccount) = some (demoAccount, ([] : List Token)) ∧
      demoAccount ≠ realAccount :=
  ⟨rfl, by decide⟩

end Mql5

namespace Mql4

/-- What a load of an order leaves in the destination: the take profit
stays the receiver's. -/
theorem OrderInfo.copy_eq (x y : OrderInfo) :
    copy x y = { x with takeProfit := y.takeProfit } :=
  rfl

/-- The orders agree on every member but the take profit. -/
def OrderInfo.AgreeArchived (x y : OrderInfo) : Prop :=
  { x with takeProfit := y.takeProfit } = y

theorem OrderInfo.copy_eq_self_iff (x y : OrderInfo) :
    copy x y = x ↔ y.takeProfit = x.takeProfit := by
  rw [OrderInfo.copy_eq]
  exact ⟨fun h => congrArg (·.takeProfit) h, fun h => by rw [h]⟩

/-- **MQL4 orders** survive their archives exactly when the receiver's
object `y` already has the same take profit. The archive tells an order from
another one `z` exactly when the two have one take profit or differ in another
member. -/
theorem OrderInfo.roundTrips_iff_takeProfit (x y z : OrderInfo) :
    (load y (save x) = some (x, ([] : List Token)) ↔ y.takeProfit = x.takeProfit) ∧
      ((save (τ := Token) x = save z → x = z) ↔
        z.takeProfit = x.takeProfit ∨ ¬ x.AgreeArchived z) ∧
      (RoundTrips x y ↔ y.takeProfit = x.takeProfit) := by
  refine ⟨?_, ?_, ?_⟩
  · rw [load_save_iff, OrderInfo.copy_eq_self_iff]
  · rw [eq_of_save_eq_iff rfl rfl, OrderInfo.copy_eq_self_iff]
    exact Iff.rfl
  · rw [roundTrips_iff rfl, OrderInfo.copy_eq_self_iff]

/-- An open order with a take profit. -/
def openOrder : OrderInfo where
  closePrice := ⟨0⟩
  closeTime := ⟨0⟩
  comment := []
  commission := ⟨0⟩
  expiration := ⟨0⟩
  lots := ⟨4607182418800017408⟩
  magic := 42
  openPrice := ⟨4607632778762754458⟩
  openTime := ⟨1700000000000⟩
  orderProfit := ⟨0⟩
  stopLoss := ⟨0⟩
  swap := ⟨0⟩
  symbol := ['E', 'U', 'R', 'U', 'S', 'D']
  takeProfit := ⟨4607857958744122982⟩
  ticket := 1001
  type := ⟨0⟩

/-- The same order without one. -/
def bareOrder : OrderInfo := { openOrder with takeProfit := ⟨0⟩ }

/-- The take profit never arrives, and the two orders have one archive. -/
theorem OrderInfo.takeProfit_lost :
    load bareOrder (save openOrder) = some (bareOrder, ([] : List Token)) ∧
      save openOrder = save bareOrder ∧ bareOrder ≠ openOrder :=
  ⟨rfl, rfl, by decide⟩

end Mql4

end PacketDistribution.Mql
