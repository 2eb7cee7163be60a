import Lob.Itch.Decoder
import Lob.Basis.Fields

/-!
# Encoding messages

The layout of the feed, as the golden messages of the tests are put together: a two-byte length, the
type, the locate, the tracking number, a 48-bit timestamp, and the fields in the order of the struct.
All numbers are big-endian.
-/

namespace Lob

open Basis

namespace Itch

def appendU16 (value : BitVec 16) : List Byte := bigEndian 2 value
def appendU32 (value : BitVec 32) : List Byte := bigEndian 4 value
def appendU48 (value : BitVec 64) : List Byte := bigEndian 6 value
def appendU64 (value : BitVec 64) : List Byte := bigEndian 8 value
def appendChars {n : ℕ} (characters : Vector Byte n) : List Byte := characters.toList

def appendHeader (type : Byte) (header : MessageHeader) : List Byte :=
  [type] ++ appendU16 header.stockLocate ++ appendU16 header.trackingNumber ++
    appendU48 header.timestamp

def frame (message : List Byte) : List Byte :=
  appendU16 (BitVec.ofNat 16 message.length) ++ message

/-- The message of an event, without its length; a skipped message has no layout. -/
def encodeMessage : ItchEvent → Option (List Byte)
  | .systemEvent e => some (appendHeader (ascii 'S') e.header ++ [e.eventCode])
  | .stockDirectory e => some (appendHeader (ascii 'R') e.header ++ appendChars e.stock ++
      [e.marketCategory] ++ [e.financialStatusIndicator] ++ appendU32 e.roundLotSize ++
      [e.roundLotsOnly] ++ [e.issueClassification] ++ appendChars e.issueSubType ++
      [e.authenticity] ++ [e.shortSaleThresholdIndicator] ++ [e.ipoFlag] ++
      [e.luldReferencePriceTier] ++ [e.etpFlag] ++ appendU32 e.etpLeverageFactor ++
      [e.inverseIndicator])
  | .tradingAction e => some (appendHeader (ascii 'H') e.header ++ appendChars e.stock ++
      [e.tradingState] ++ [e.reserved] ++ appendChars e.reason)
  | .addOrder e => some (appendHeader (ascii 'A') e.header ++ appendU64 e.orderReference ++
      [sideByte e.side] ++ appendU32 e.shares ++ appendChars e.stock ++ appendU32 e.price)
  | .addAttributedOrder e => some (appendHeader (ascii 'F') e.header ++
      appendU64 e.orderReference ++ [sideByte e.side] ++ appendU32 e.shares ++
      appendChars e.stock ++ appendU32 e.price ++ appendChars e.attribution)
  | .orderExecuted e => some (appendHeader (ascii 'E') e.header ++ appendU64 e.orderReference ++
      appendU32 e.executedShares ++ appendU64 e.matchNumber)
  | .orderExecutedWithPrice e => some (appendHeader (ascii 'C') e.header ++
      appendU64 e.orderReference ++ appendU32 e.executedShares ++ appendU64 e.matchNumber ++
      [e.printable] ++ appendU32 e.executionPrice)
  | .orderCancel e => some (appendHeader (ascii 'X') e.header ++ appendU64 e.orderReference ++
      appendU32 e.canceledShares)
  | .orderDelete e => some (appendHeader (ascii 'D') e.header ++ appendU64 e.orderReference)
  | .orderReplace e => some (appendHeader (ascii 'U') e.header ++
      appendU64 e.originalOrderReference ++ appendU64 e.newOrderReference ++ appendU32 e.shares ++
      appendU32 e.price)
  | .trade e => some (appendHeader (ascii 'P') e.header ++ appendU64 e.orderReference ++
      [sideByte e.side] ++ appendU32 e.shares ++ appendChars e.stock ++ appendU32 e.price ++
      appendU64 e.matchNumber)
  | .crossTrade e => some (appendHeader (ascii 'Q') e.header ++ appendU64 e.shares ++
      appendChars e.stock ++ appendU32 e.crossPrice ++ appendU64 e.matchNumber ++ [e.crossType])
  | .brokenTrade e => some (appendHeader (ascii 'B') e.header ++ appendU64 e.matchNumber)
  | .netOrderImbalance e => some (appendHeader (ascii 'I') e.header ++ appendU64 e.pairedShares ++
      appendU64 e.imbalanceShares ++ [e.imbalanceDirection] ++ appendChars e.stock ++
      appendU32 e.farPrice ++ appendU32 e.nearPrice ++ appendU32 e.currentReferencePrice ++
      [e.crossType] ++ [e.priceVariationIndicator])
  | .skippedMessage _ => none

/-- The bytes of an event on the wire. -/
def encode (event : ItchEvent) : Option (List Byte) := (encodeMessage event).map frame

def header : ItchEvent → Option MessageHeader
  | .systemEvent e => some e.header
  | .stockDirectory e => some e.header
  | .tradingAction e => some e.header
  | .addOrder e => some e.header
  | .addAttributedOrder e => some e.header
  | .orderExecuted e => some e.header
  | .orderExecutedWithPrice e => some e.header
  | .orderCancel e => some e.header
  | .orderDelete e => some e.header
  | .orderReplace e => some e.header
  | .trade e => some e.header
  | .crossTrade e => some e.header
  | .brokenTrade e => some e.header
  | .netOrderImbalance e => some e.header
  | .skippedMessage e => e.header

/-! ## Layouts

Each layout is the message after its type byte. -/

abbrev u16 : Field Byte (BitVec 16) := .number 16 2 (by decide)
abbrev u32 : Field Byte (BitVec 32) := .number 32 4 (by decide)
abbrev u48 : Field Byte (BitVec 64) := .number 64 6 (by decide)
abbrev u64 : Field Byte (BitVec 64) := .number 64 8 (by decide)

@[simp] theorem u16_valid (v : BitVec 16) : u16.Valid v := Field.number_valid _ (by decide) v

@[simp] theorem u32_valid (v : BitVec 32) : u32.Valid v := Field.number_valid _ (by decide) v

@[simp] theorem u64_valid (v : BitVec 64) : u64.Valid v := Field.number_valid _ (by decide) v

theorem toSide_sideByte (side : Side) : toSide (sideByte side) = side := by
  cases side <;> decide

abbrev side : Field Byte Side := .coded sideByte toSide toSide_sideByte

def headerLayout : Field Byte MessageHeader :=
  (u16.seq (u16.seq u48)).map (fun (l, n, t) => ⟨l, n, t⟩)
    (fun h => (h.stockLocate, h.trackingNumber, h.timestamp)) (fun _ => rfl) fun _ => rfl

/-- A timestamp has 48 bits on the wire. -/
@[simp] theorem headerLayout_valid (h : MessageHeader) :
    headerLayout.Valid h ↔ h.timestamp.toNat < 2 ^ 48 := by
  unfold headerLayout
  simp only [Field.map_valid, Field.seq_valid, u16_valid, true_and]
  exact Iff.rfl

@[simp] theorem headerLayout_accepts (input : List Byte) : headerLayout.Accepts input := by
  unfold headerLayout
  simp

def systemEventLayout : Field Byte SystemEvent :=
  (headerLayout.seq .symbol).map (fun (h, c) => ⟨h, c⟩) (fun e => (e.header, e.eventCode))
    (fun _ => rfl) fun _ => rfl

def stockDirectoryLayout : Field Byte StockDirectory :=
  (headerLayout.seq ((Field.symbols 8).seq (Field.symbol.seq (Field.symbol.seq (u32.seq
    (Field.symbol.seq (Field.symbol.seq ((Field.symbols 2).seq (Field.symbol.seq (Field.symbol.seq
      (Field.symbol.seq (Field.symbol.seq (Field.symbol.seq (u32.seq
        Field.symbol)))))))))))))).map
    (fun (h, s, m, f, r, o, c, t, a, x, i, l, e, v, n) => ⟨h, s, m, f, r, o, c, t, a, x, i, l, e, v, n⟩)
    (fun e => (e.header, e.stock, e.marketCategory, e.financialStatusIndicator, e.roundLotSize,
      e.roundLotsOnly, e.issueClassification, e.issueSubType, e.authenticity,
      e.shortSaleThresholdIndicator, e.ipoFlag, e.luldReferencePriceTier, e.etpFlag,
      e.etpLeverageFactor, e.inverseIndicator))
    (fun _ => rfl) fun _ => rfl

def tradingActionLayout : Field Byte TradingAction :=
  (headerLayout.seq ((Field.symbols 8).seq (Field.symbol.seq (Field.symbol.seq
    (Field.symbols 4))))).map
    (fun (h, s, t, v, r) => ⟨h, s, t, v, r⟩)
    (fun e => (e.header, e.stock, e.tradingState, e.reserved, e.reason))
    (fun _ => rfl) fun _ => rfl

def addOrderLayout : Field Byte AddOrder :=
  (headerLayout.seq (u64.seq (side.seq (u32.seq ((Field.symbols 8).seq u32))))).map
    (fun (h, r, d, q, s, p) => ⟨h, r, d, q, s, p⟩)
    (fun e => (e.header, e.orderReference, e.side, e.shares, e.stock, e.price))
    (fun _ => rfl) fun _ => rfl

def addAttributedOrderLayout : Field Byte AddAttributedOrder :=
  (headerLayout.seq (u64.seq (side.seq (u32.seq ((Field.symbols 8).seq (u32.seq
    (Field.symbols 4))))))).map
    (fun (h, r, d, q, s, p, a) => ⟨h, r, d, q, s, p, a⟩)
    (fun e => (e.header, e.orderReference, e.side, e.shares, e.stock, e.price, e.attribution))
    (fun _ => rfl) fun _ => rfl

def orderExecutedLayout : Field Byte OrderExecuted :=
  (headerLayout.seq (u64.seq (u32.seq u64))).map (fun (h, r, q, m) => ⟨h, r, q, m⟩)
    (fun e => (e.header, e.orderReference, e.executedShares, e.matchNumber))
    (fun _ => rfl) fun _ => rfl

def orderExecutedWithPriceLayout : Field Byte OrderExecutedWithPrice :=
  (headerLayout.seq (u64.seq (u32.seq (u64.seq (Field.symbol.seq u32))))).map
    (fun (h, r, q, m, d, p) => ⟨h, r, q, m, d, p⟩)
    (fun e => (e.header, e.orderReference, e.executedShares, e.matchNumber, e.printable,
      e.executionPrice))
    (fun _ => rfl) fun _ => rfl

def orderCancelLayout : Field Byte OrderCancel :=
  (headerLayout.seq (u64.seq u32)).map (fun (h, r, q) => ⟨h, r, q⟩)
    (fun e => (e.header, e.orderReference, e.canceledShares)) (fun _ => rfl) fun _ => rfl

def orderDeleteLayout : Field Byte OrderDelete :=
  (headerLayout.seq u64).map (fun (h, r) => ⟨h, r⟩) (fun e => (e.header, e.orderReference))
    (fun _ => rfl) fun _ => rfl

def orderReplaceLayout : Field Byte OrderReplace :=
  (headerLayout.seq (u64.seq (u64.seq (u32.seq u32)))).map
    (fun (h, o, n, q, p) => ⟨h, o, n, q, p⟩)
    (fun e => (e.header, e.originalOrderReference, e.newOrderReference, e.shares, e.price))
    (fun _ => rfl) fun _ => rfl

def tradeLayout : Field Byte Trade :=
  (headerLayout.seq (u64.seq (side.seq (u32.seq ((Field.symbols 8).seq (u32.seq u64)))))).map
    (fun (h, r, d, q, s, p, m) => ⟨h, r, d, q, s, p, m⟩)
    (fun e => (e.header, e.orderReference, e.side, e.shares, e.stock, e.price, e.matchNumber))
    (fun _ => rfl) fun _ => rfl

def crossTradeLayout : Field Byte CrossTrade :=
  (headerLayout.seq (u64.seq ((Field.symbols 8).seq (u32.seq (u64.seq Field.symbol))))).map
    (fun (h, q, s, p, m, t) => ⟨h, q, s, p, m, t⟩)
    (fun e => (e.header, e.shares, e.stock, e.crossPrice, e.matchNumber, e.crossType))
    (fun _ => rfl) fun _ => rfl

def brokenTradeLayout : Field Byte BrokenTrade :=
  (headerLayout.seq u64).map (fun (h, m) => ⟨h, m⟩) (fun e => (e.header, e.matchNumber))
    (fun _ => rfl) fun _ => rfl

def netOrderImbalanceLayout : Field Byte NetOrderImbalance :=
  (headerLayout.seq (u64.seq (u64.seq (Field.symbol.seq ((Field.symbols 8).seq (u32.seq (u32.seq
    (u32.seq (Field.symbol.seq Field.symbol))))))))).map
    (fun (h, p, i, d, s, f, n, c, t, v) => ⟨h, p, i, d, s, f, n, c, t, v⟩)
    (fun e => (e.header, e.pairedShares, e.imbalanceShares, e.imbalanceDirection, e.stock,
      e.farPrice, e.nearPrice, e.currentReferencePrice, e.crossType, e.priceVariationIndicator))
    (fun _ => rfl) fun _ => rfl

end Itch

end Lob
