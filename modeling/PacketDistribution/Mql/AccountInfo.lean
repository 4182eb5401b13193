/-
PacketDistribution.Mql.AccountInfo — the account records of
`mql-cpp/account-info.hpp` and their `serialize` member lists.

A member list is the body of `serialize`, line by line, in the order of
the source. In `Mql5` the lists of `AccountInfoInteger` and
`AccountInfoDouble` name the members declared there and not the base class
of the same name in `Common`.
-/
import PacketDistribution.Mql.Common

namespace PacketDistribution.Mql

open PacketDistribution.Lib

/-! ## `mql::common` -/

namespace Common

/-- `mql::common::AccountInfoDouble`. -/
structure AccountInfoDouble where
  balance : Double
  credit : Double
  profit : Double
  equity : Double
  margin : Double
  marginFree : Double
  marginLevel : Double
  marginSoCall : Double
  marginSoSo : Double
  deriving DecidableEq

def AccountInfoDouble.serialize : List (Member Token AccountInfoDouble) :=
  [ amp (·.balance) fun a v => { a with balance := v },
    amp (·.credit) fun a v => { a with credit := v },
    amp (·.profit) fun a v => { a with profit := v },
    amp (·.equity) fun a v => { a with equity := v },
    amp (·.margin) fun a v => { a with margin := v },
    amp (·.marginFree) fun a v => { a with marginFree := v },
    amp (·.marginLevel) fun a v => { a with marginLevel := v },
    amp (·.marginSoCall) fun a v => { a with marginSoCall := v },
    amp (·.marginSoSo) fun a v => { a with marginSoSo := v } ]

instance : Archivable Token AccountInfoDouble := .record AccountInfoDouble.serialize

/-- `mql::common::AccountInfoString`. -/
structure AccountInfoString where
  accountName : StdString
  tradeServerName : StdString
  accountCurrency : StdString
  accountCompany : StdString
  deriving DecidableEq

def AccountInfoString.serialize : List (Member Token AccountInfoString) :=
  [ amp (·.accountName) fun a v => { a with accountName := v },
    amp (·.tradeServerName) fun a v => { a with tradeServerName := v },
    amp (·.accountCurrency) fun a v => { a with accountCurrency := v },
    amp (·.accountCompany) fun a v => { a with accountCompany := v } ]

instance : Archivable Token AccountInfoString := .record AccountInfoString.serialize

/-- `mql::common::AccountInfoInteger`. -/
structure AccountInfoInteger where
  accountLogin : Int64
  tradeMode : EnumAccountTradeMode
  accountLeverage : Int64
  limitOrders : Int32
  marginSoMode : EnumAccountStopOutMode
  tradeAllowed : Bool
  expertTradeAllowed : Bool
  deriving DecidableEq

def AccountInfoInteger.serialize : List (Member Token AccountInfoInteger) :=
  [ amp (·.accountLogin) fun a v => { a with accountLogin := v },
    amp (·.tradeMode) fun a v => { a with tradeMode := v },
    amp (·.accountLeverage) fun a v => { a with accountLeverage := v },
    amp (·.limitOrders) fun a v => { a with limitOrders := v },
    amp (·.marginSoMode) fun a v => { a with marginSoMode := v },
    amp (·.tradeAllowed) fun a v => { a with tradeAllowed := v },
    amp (·.expertTradeAllowed) fun a v => { a with expertTradeAllowed := v } ]

instance : Archivable Token AccountInfoInteger := .record AccountInfoInteger.serialize

/-- `mql::common::AccountInfoDoubleMinimal`. -/
structure AccountInfoDoubleMinimal where
  balance : Double
  profit : Double
  equity : Double
  margin : Double
  marginFree : Double
  deriving DecidableEq

def AccountInfoDoubleMinimal.serialize : List (Member Token AccountInfoDoubleMinimal) :=
  [ amp (·.balance) fun a v => { a with balance := v },
    amp (·.profit) fun a v => { a with profit := v },
    amp (·.equity) fun a v => { a with equity := v },
    amp (·.margin) fun a v => { a with margin := v },
    amp (·.marginFree) fun a v => { a with marginFree := v } ]

instance : Archivable Token AccountInfoDoubleMinimal := .record AccountInfoDoubleMinimal.serialize

/-- `mql::common::AccountInfoIntegerMinimal`. -/
structure AccountInfoIntegerMinimal where
  accountLogin : Int64
  accountLeverage : Int64
  deriving DecidableEq

def AccountInfoIntegerMinimal.serialize : List (Member Token AccountInfoIntegerMinimal) :=
  [ amp (·.accountLogin) fun a v => { a with accountLogin := v },
    amp (·.accountLeverage) fun a v => { a with accountLeverage := v } ]

instance : Archivable Token AccountInfoIntegerMinimal := .record AccountInfoIntegerMinimal.serialize

/-- `mql::common::AccountInfoMinimal`, three bases and nothing of its own. -/
structure AccountInfoMinimal extends
    AccountInfoIntegerMinimal, AccountInfoDoubleMinimal, AccountInfoString
  deriving DecidableEq

def AccountInfoMinimal.serialize : List (Member Token AccountInfoMinimal) :=
  [ amp (·.toAccountInfoIntegerMinimal) fun a v => { a with toAccountInfoIntegerMinimal := v },
    amp (·.toAccountInfoDoubleMinimal) fun a v => { a with toAccountInfoDoubleMinimal := v },
    amp (·.toAccountInfoString) fun a v => { a with toAccountInfoString := v } ]

instance : Archivable Token AccountInfoMinimal := .record AccountInfoMinimal.serialize

end Common

/-! ## `mql::mql4` -/

namespace Mql4

open Common

/-- `mql::mql4::FullAccountInfo`. -/
structure FullAccountInfo extends
    AccountInfoInteger, AccountInfoDouble, AccountInfoString
  deriving DecidableEq

def FullAccountInfo.serialize : List (Member Token FullAccountInfo) :=
  [ amp (·.toAccountInfoInteger) fun a v => { a with toAccountInfoInteger := v },
    amp (·.toAccountInfoDouble) fun a v => { a with toAccountInfoDouble := v },
    amp (·.toAccountInfoString) fun a v => { a with toAccountInfoString := v } ]

instance : Archivable Token FullAccountInfo := .record FullAccountInfo.serialize

end Mql4

/-! ## `mql::mql5` -/

namespace Mql5

/-- `mql::mql5::AccountInfoInteger`. -/
structure AccountInfoInteger extends Common.AccountInfoInteger where
  marginMode : EnumAccountMarginMode
  currencyDigits : Int32
  fifoClose : Bool
  hedgeAllowed : Bool
  deriving DecidableEq

/-- No `base_object<common::AccountInfoInteger>` line. -/
def AccountInfoInteger.serialize : List (Member Token AccountInfoInteger) :=
  [ amp (·.marginMode) fun a v => { a with marginMode := v },
    amp (·.currencyDigits) fun a v => { a with currencyDigits := v },
    amp (·.fifoClose) fun a v => { a with fifoClose := v },
    amp (·.hedgeAllowed) fun a v => { a with hedgeAllowed := v } ]

instance : Archivable Token AccountInfoInteger := .record AccountInfoInteger.serialize

/-- `mql::mql5::AccountInfoDouble`. -/
structure AccountInfoDouble extends Common.AccountInfoDouble where
  marginInitial : Double
  marginMaintenance : Double
  assets : Double
  liabilities : Double
  commissionBlocked : Double
  deriving DecidableEq

/-- No `base_object<common::AccountInfoDouble>` line. -/
def AccountInfoDouble.serialize : List (Member Token AccountInfoDouble) :=
  [ amp (·.marginInitial) fun a v => { a with marginInitial := v },
    amp (·.marginMaintenance) fun a v => { a with marginMaintenance := v },
    amp (·.assets) fun a v => { a with assets := v },
    amp (·.liabilities) fun a v => { a with liabilities := v },
    amp (·.commissionBlocked) fun a v => { a with commissionBlocked := v } ]

instance : Archivable Token AccountInfoDouble := .record AccountInfoDouble.serialize

end Mql5

end PacketDistribution.Mql
