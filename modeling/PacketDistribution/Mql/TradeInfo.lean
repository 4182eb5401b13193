/-
PacketDistribution.Mql.TradeInfo — the order, position and deal records of
`mql-cpp/trade-info.hpp` and their `serialize` member lists.

The lists are the source's, line by line: `Mql5.OrderInfoInteger` writes
`ar &state;` four times and has no line for `type_filling`, `type_time`
and `reason`, and `Mql4.OrderInfo` has no line for `take_profit`.
-/
import PacketDistribution.Mql.Common

namespace PacketDistribution.Mql

open PacketDistribution.Lib

/-! ## `mql::mql5` orders -/

namespace Mql5

/-- `mql::mql5::OrderInfoInteger`. -/
structure OrderInfoInteger where
  ticket : Int64
  timeSetup : MqlDateTime
  type : EnumOrderType
  state : EnumOrderState
  timeExpiration : MqlDateTime
  timeDone : MqlDateTime
  timeSetupMsc : Int64
  timeDoneMsc : Int64
  typeFilling : EnumOrderTypeFilling
  typeTime : EnumOrderTypeTime
  magic : Int64
  reason : EnumOrderReason
  positionId : Int64
  positionById : Int64
  deriving DecidableEq

def OrderInfoInteger.serialize : List (Member Token OrderInfoInteger) :=
  [ amp (·.ticket) fun o v => { o with ticket := v },
    amp (·.timeSetup) fun o v => { o with timeSetup := v },
    amp (·.type) fun o v => { o with type := v },
    amp (·.state) fun o v => { o with state := v },
    amp (·.timeExpiration) fun o v => { o with timeExpiration := v },
    amp (·.timeDone) fun o v => { o with timeDone := v },
    amp (·.timeSetupMsc) fun o v => { o with timeSetupMsc := v },
    amp (·.timeDoneMsc) fun o v => { o with timeDoneMsc := v },
    amp (·.state) fun o v => { o with state := v },
    amp (·.state) fun o v => { o with state := v },
    amp (·.magic) fun o v => { o with magic := v },
    amp (·.state) fun o v => { o with state := v },
    amp (·.positionId) fun o v => { o with positionId := v },
    amp (·.positionById) fun o v => { o with positionById := v } ]

instance : Archivable Token OrderInfoInteger := .record OrderInfoInteger.serialize

/-- `mql::mql5::OrderInfoDouble`. -/
structure OrderInfoDouble where
  volumeInitial : Double
  volumeCurrent : Double
  priceOpen : Double
  stopLoss : Double
  takeProfit : Double
  priceCurrent : Double
  stopLimit : Double
  deriving DecidableEq

def OrderInfoDouble.serialize : List (Member Token OrderInfoDouble) :=
  [ amp (·.volumeInitial) fun o v => { o with volumeInitial := v },
    amp (·.volumeCurrent) fun o v => { o with volumeCurrent := v },
    amp (·.priceOpen) fun o v => { o with priceOpen := v },
    amp (·.stopLoss) fun o v => { o with stopLoss := v },
    amp (·.takeProfit) fun o v => { o with takeProfit := v },
    amp (·.priceCurrent) fun o v => { o with priceCurrent := v },
    amp (·.stopLimit) fun o v => { o with stopLimit := v } ]

instance : Archivable Token OrderInfoDouble := .record OrderInfoDouble.serialize

/-- `mql::mql5::OrderInfoString`. -/
structure OrderInfoString where
  symbol : StdString
  comment : StdString
  externalId : StdString
  deriving DecidableEq

def OrderInfoString.serialize : List (Member Token OrderInfoString) :=
  [ amp (·.symbol) fun o v => { o with symbol := v },
    amp (·.comment) fun o v => { o with comment := v },
    amp (·.externalId) fun o v => { o with externalId := v } ]

instance : Archivable Token OrderInfoString := .record OrderInfoString.serialize

/-- `mql::mql5::OrderInfo`. -/
structure OrderInfo extends OrderInfoInteger, OrderInfoDouble, OrderInfoString
  deriving DecidableEq

def OrderInfo.serialize : List (Member Token OrderInfo) :=
  [ amp (·.toOrderInfoInteger) fun o v => { o with toOrderInfoInteger := v },
    amp (·.toOrderInfoDouble) fun o v => { o with toOrderInfoDouble := v },
    amp (·.toOrderInfoString) fun o v => { o with toOrderInfoString := v } ]

instance : Archivable Token OrderInfo := .record OrderInfo.serialize

/-! ## `mql::mql5` positions -/

/-- `mql::mql5::PositionInfoInteger`. -/
structure PositionInfoInteger where
  ticket : Int64
  openTime : MqlDateTime
  openTimeMsc : Int64
  timeUpdate : MqlDateTime
  timeUpdateMsc : Int64
  type : EnumPositionType
  magic : Int64
  identifier : Int64
  reason : EnumPositionReason
  deriving DecidableEq

def PositionInfoInteger.serialize : List (Member Token PositionInfoInteger) :=
  [ amp (·.ticket) fun p v => { p with ticket := v },
    amp (·.openTime) fun p v => { p with openTime := v },
    amp (·.openTimeMsc) fun p v => { p with openTimeMsc := v },
    amp (·.timeUpdate) fun p v => { p with timeUpdate := v },
    amp (·.timeUpdateMsc) fun p v => { p with timeUpdateMsc := v },
    amp (·.type) fun p v => { p with type := v },
    amp (·.magic) fun p v => { p with magic := v },
    amp (·.identifier) fun p v => { p with identifier := v },
    amp (·.reason) fun p v => { p with reason := v } ]

instance : Archivable Token PositionInfoInteger := .record PositionInfoInteger.serialize

/-- `mql::mql5::PositionInfoDouble`. -/
structure PositionInfoDouble where
  volume : Double
  priceOpen : Double
  stopLoss : Double
  takeProfit : Double
  priceCurrent : Double
  swap : Double
  profit : Double
  deriving DecidableEq

def PositionInfoDouble.serialize : List (Member Token PositionInfoDouble) :=
  [ amp (·.volume) fun p v => { p with volume := v },
    amp (·.priceOpen) fun p v => { p with priceOpen := v },
    amp (·.stopLoss) fun p v => { p with stopLoss := v },
    amp (·.takeProfit) fun p v => { p with takeProfit := v },
    amp (·.priceCurrent) fun p v => { p with priceCurrent := v },
    amp (·.swap) fun p v => { p with swap := v },
    amp (·.profit) fun p v => { p with profit := v } ]

instance : Archivable Token PositionInfoDouble := .record PositionInfoDouble.serialize

/-- `mql::mql5::PositionInfoString`. -/
structure PositionInfoString where
  symbol : StdString
  comment : StdString
  externalId : StdString
  deriving DecidableEq

def PositionInfoString.serialize : List (Member Token PositionInfoString) :=
  [ amp (·.symbol) fun p v => { p with symbol := v },
    amp (·.comment) fun p v => { p with comment := v },
    amp (·.externalId) fun p v => { p with externalId := v } ]

instance : Archivable Token PositionInfoString := .record PositionInfoString.serialize

/-- `mql::mql5::PositionInfo`. -/
structure PositionInfo extends
    PositionInfoInteger, PositionInfoDouble, PositionInfoString
  deriving DecidableEq

def PositionInfo.serialize : List (Member Token PositionInfo) :=
  [ amp (·.toPositionInfoInteger) fun p v => { p with toPositionInfoInteger := v },
    amp (·.toPositionInfoDouble) fun p v => { p with toPositionInfoDouble := v },
    amp (·.toPositionInfoString) fun p v => { p with toPositionInfoString := v } ]

instance : Archivable Token PositionInfo := .record PositionInfo.serialize

/-! ## `mql::mql5` deals -/

/-- `mql::mql5::DealInfoInteger`. -/
structure DealInfoInteger where
  ticket : Int64
  order : Int64
  time : MqlDateTime
  timeMsc : Int64
  type : EnumDealType
  entry : EnumDealEntry
  magic : Int64
  reason : EnumDealReason
  positionId : Int64
  deriving DecidableEq

def DealInfoInteger.serialize : List (Member Token DealInfoInteger) :=
  [ amp (·.ticket) fun d v => { d with ticket := v },
    amp (·.order) fun d v => { d with order := v },
    amp (·.time) fun d v => { d with time := v },
    amp (·.timeMsc) fun d v => { d with timeMsc := v },
    amp (·.type) fun d v => { d with type := v },
    amp (·.entry) fun d v => { d with entry := v },
    amp (·.magic) fun d v => { d with magic := v },
    amp (·.reason) fun d v => { d with reason := v },
    amp (·.positionId) fun d v => { d with positionId := v } ]

instance : Archivable Token DealInfoInteger := .record DealInfoInteger.serialize

/-- `mql::mql5::DealInfoDouble`. -/
structure DealInfoDouble where
  volume : Double
  price : Double
  commission : Double
  swap : Double
  profit : Double
  fee : Double
  stopLoss : Double
  takeProfit : Double
  deriving DecidableEq

def DealInfoDouble.serialize : List (Member Token DealInfoDouble) :=
  [ amp (·.volume) fun d v => { d with volume := v },
    amp (·.price) fun d v => { d with price := v },
    amp (·.commission) fun d v => { d with commission := v },
    amp (·.swap) fun d v => { d with swap := v },
    amp (·.profit) fun d v => { d with profit := v },
    amp (·.fee) fun d v => { d with fee := v },
    amp (·.stopLoss) fun d v => { d with stopLoss := v },
    amp (·.takeProfit) fun d v => { d with takeProfit := v } ]

instance : Archivable Token DealInfoDouble := .record DealInfoDouble.serialize

/-- `mql::mql5::DealInfoString`. -/
structure DealInfoString where
  symbol : StdString
  comment : StdString
  externalId : StdString
  deriving DecidableEq

def DealInfoString.serialize : List (Member Token DealInfoString) :=
  [ amp (·.symbol) fun d v => { d with symbol := v },
    amp (·.comment) fun d v => { d with comment := v },
    amp (·.externalId) fun d v => { d with externalId := v } ]

instance : Archivable Token DealInfoString := .record DealInfoString.serialize

/-- `mql::mql5::DealInfo`. -/
structure DealInfo extends DealInfoInteger, DealInfoDouble, DealInfoString
  deriving DecidableEq

def DealInfo.serialize : List (Member Token DealInfo) :=
  [ amp (·.toDealInfoInteger) fun d v => { d with toDealInfoInteger := v },
    amp (·.toDealInfoDouble) fun d v => { d with toDealInfoDouble := v },
    amp (·.toDealInfoString) fun d v => { d with toDealInfoString := v } ]

instance : Archivable Token DealInfo := .record DealInfo.serialize

end Mql5

/-! ## `mql::mql4` orders -/

namespace Mql4

/-- `mql::mql4::OrderInfo`. -/
structure OrderInfo where
  closePrice : Double
  closeTime : MqlDateTime
  comment : StdString
  commission : Double
  expiration : MqlDateTime
  lots : Double
  magic : Int32
  openPrice : Double
  openTime : MqlDateTime
  orderProfit : Double
  stopLoss : Double
  swap : Double
  symbol : StdString
  takeProfit : Double
  ticket : Int32
  type : Int32
  deriving DecidableEq

def OrderInfo.serialize : List (Member Token OrderInfo) :=
  [ amp (·.closePrice) fun o v => { o with closePrice := v },
    amp (·.closeTime) fun o v => { o with closeTime := v },
    amp (·.comment) fun o v => { o with comment := v },
    amp (·.commission) fun o v => { o with commission := v },
    amp (·.expiration) fun o v => { o with expiration := v },
    amp (·.lots) fun o v => { o with lots := v },
    amp (·.magic) fun o v => { o with magic := v },
    amp (·.openPrice) fun o v => { o with openPrice := v },
    amp (·.openTime) fun o v => { o with openTime := v },
    amp (·.orderProfit) fun o v => { o with orderProfit := v },
    amp (·.stopLoss) fun o v => { o with stopLoss := v },
    amp (·.swap) fun o v => { o with swap := v },
    amp (·.symbol) fun o v => { o with symbol := v },
    amp (·.ticket) fun o v => { o with ticket := v },
    amp (·.type) fun o v => { o with type := v } ]

instance : Archivable Token OrderInfo := .record OrderInfo.serialize

end Mql4

end PacketDistribution.Mql
