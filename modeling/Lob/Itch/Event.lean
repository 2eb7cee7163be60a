import Lob.Common

/-!
# ITCH events

The message types of the feed, with the fields of the source. A `char` is a byte, and an array of
`n` of them a `Vector Byte n`.
-/

namespace Lob

abbrev StockSymbol := Vector Byte 8
abbrev MarketParticipantId := Vector Byte 4

structure MessageHeader where
  stockLocate : StockLocate
  trackingNumber : BitVec 16
  timestamp : TimestampNs
  deriving DecidableEq

structure SystemEvent where
  header : MessageHeader
  eventCode : Byte
  deriving DecidableEq

structure StockDirectory where
  header : MessageHeader
  stock : StockSymbol
  marketCategory : Byte
  financialStatusIndicator : Byte
  roundLotSize : BitVec 32
  roundLotsOnly : Byte
  issueClassification : Byte
  issueSubType : Vector Byte 2
  authenticity : Byte
  shortSaleThresholdIndicator : Byte
  ipoFlag : Byte
  luldReferencePriceTier : Byte
  etpFlag : Byte
  etpLeverageFactor : BitVec 32
  inverseIndicator : Byte
  deriving DecidableEq

structure TradingAction where
  header : MessageHeader
  stock : StockSymbol
  tradingState : Byte
  reserved : Byte
  reason : Vector Byte 4
  deriving DecidableEq

structure AddOrder where
  header : MessageHeader
  orderReference : OrderId
  side : Side
  shares : Quantity
  stock : StockSymbol
  price : Price
  deriving DecidableEq

structure AddAttributedOrder where
  header : MessageHeader
  orderReference : OrderId
  side : Side
  shares : Quantity
  stock : StockSymbol
  price : Price
  attribution : MarketParticipantId
  deriving DecidableEq

structure OrderExecuted where
  header : MessageHeader
  orderReference : OrderId
  executedShares : Quantity
  matchNumber : MatchId
  deriving DecidableEq

structure OrderExecutedWithPrice where
  header : MessageHeader
  orderReference : OrderId
  executedShares : Quantity
  matchNumber : MatchId
  printable : Byte
  executionPrice : Price
  deriving DecidableEq

structure OrderCancel where
  header : MessageHeader
  orderReference : OrderId
  canceledShares : Quantity
  deriving DecidableEq

structure OrderDelete where
  header : MessageHeader
  orderReference : OrderId
  deriving DecidableEq

structure OrderReplace where
  header : MessageHeader
  originalOrderReference : OrderId
  newOrderReference : OrderId
  shares : Quantity
  price : Price
  deriving DecidableEq

/-- Non-cross trade (`P`). -/
structure Trade where
  header : MessageHeader
  orderReference : OrderId
  side : Side
  shares : Quantity
  stock : StockSymbol
  price : Price
  matchNumber : MatchId
  deriving DecidableEq

structure CrossTrade where
  header : MessageHeader
  shares : BitVec 64
  stock : StockSymbol
  crossPrice : Price
  matchNumber : MatchId
  crossType : Byte
  deriving DecidableEq

structure BrokenTrade where
  header : MessageHeader
  matchNumber : MatchId
  deriving DecidableEq

structure NetOrderImbalance where
  header : MessageHeader
  pairedShares : BitVec 64
  imbalanceShares : BitVec 64
  imbalanceDirection : Byte
  stock : StockSymbol
  farPrice : Price
  nearPrice : Price
  currentReferencePrice : Price
  crossType : Byte
  priceVariationIndicator : Byte
  deriving DecidableEq

/-- A complete frame whose type is not modelled; short ones have no header. -/
structure SkippedMessage where
  messageType : Byte
  header : Option MessageHeader
  deriving DecidableEq

inductive ItchEvent where
  | systemEvent (message : SystemEvent)
  | stockDirectory (message : StockDirectory)
  | tradingAction (message : TradingAction)
  | addOrder (message : AddOrder)
  | addAttributedOrder (message : AddAttributedOrder)
  | orderExecuted (message : OrderExecuted)
  | orderExecutedWithPrice (message : OrderExecutedWithPrice)
  | orderCancel (message : OrderCancel)
  | orderDelete (message : OrderDelete)
  | orderReplace (message : OrderReplace)
  | trade (message : Trade)
  | crossTrade (message : CrossTrade)
  | brokenTrade (message : BrokenTrade)
  | netOrderImbalance (message : NetOrderImbalance)
  | skippedMessage (message : SkippedMessage)
  deriving DecidableEq

end Lob
