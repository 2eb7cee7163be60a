import Lob.Itch.Event

/-!
# The ITCH decoder

`decodeNext` takes one frame off the front of a byte stream: a two-byte length, then a message whose
first byte is its type. Every read of the input is checked, and one past its end is a fault.
-/

namespace Lob

/-- The byte of an ASCII character. -/
def ascii (c : Char) : Byte := BitVec.ofNat 8 c.toNat

inductive DecodeStatus where
  | Complete
  | NeedMoreData
  | Error
  deriving DecidableEq

inductive DecodeErrorCode where
  | InvalidFrameLength
  | TruncatedFrame
  | UnexpectedMessageLength
  | UnsupportedMessageType
  | InvalidSide
  deriving DecidableEq

/-- The offset counts from the start of the frame, its length prefix included. -/
structure DecodeError where
  code : DecodeErrorCode
  offset : ℕ
  reason : String
  deriving DecidableEq

structure DecodedMessage where
  event : ItchEvent
  bytesConsumed : ℕ
  deriving DecidableEq

structure DecodeResult where
  status : DecodeStatus := .NeedMoreData
  message : Option DecodedMessage := none
  error : Option DecodeError := none
  deriving DecidableEq

namespace Itch

def framePrefixBytes : ℕ := 2
def commonHeaderBytes : ℕ := 11

/-! ## Reading -/

def byteAt (bytes : List Byte) (offset : ℕ) : Except Fault Byte := deref bytes[offset]?

/-- The loop of `read_be` and `read_timestamp`: `count` bytes into an unsigned of width `w`. -/
def readBytes (w count : ℕ) (bytes : List Byte) (offset : ℕ) : Except Fault (BitVec w) :=
  (List.range count).foldlM
    (fun value index => do return value <<< 8 ||| (← byteAt bytes (offset + index)).setWidth w) 0

/-- `read_be` for the unsigned types of `n` bytes. -/
def readBE (n : ℕ) (bytes : List Byte) (offset : ℕ) : Except Fault (BitVec (8 * n)) :=
  readBytes (8 * n) n bytes offset

def readTimestamp (bytes : List Byte) (offset : ℕ) : Except Fault TimestampNs :=
  readBytes 64 6 bytes offset

def readChars (count : ℕ) (bytes : List Byte) (offset : ℕ) : Except Fault (Vector Byte count) :=
  Vector.ofFnM fun index => byteAt bytes (offset + index)

def readHeader (message : List Byte) : Except Fault MessageHeader := do
  return {
    stockLocate := ← readBE 2 message 1
    trackingNumber := ← readBE 2 message 3
    timestamp := ← readTimestamp message 5 }

/-! ## Results -/

def needMoreData : DecodeResult := { status := .NeedMoreData }

def error (code : DecodeErrorCode) (offset : ℕ) (reason : String) : DecodeResult :=
  { status := .Error, error := some ⟨code, offset, reason⟩ }

def complete (event : ItchEvent) (bytesConsumed : ℕ) : DecodeResult :=
  { status := .Complete, message := some ⟨event, bytesConsumed⟩ }

def wrongSize : DecodeResult :=
  error .UnexpectedMessageLength framePrefixBytes "message length does not match ITCH 5.0 type"

/-! ## Sides -/

def sideByte : Side → Byte
  | .Buy => ascii 'B'
  | .Sell => ascii 'S'

def validSide (value : Byte) : Bool := value = sideByte .Buy || value = sideByte .Sell

def toSide (value : Byte) : Side := if value = sideByte .Buy then .Buy else .Sell

/-! ## Message bodies -/

def readSystemEvent (message : List Byte) : Except Fault SystemEvent := do
  return {
    header := ← readHeader message
    eventCode := ← byteAt message 11 }

def readStockDirectory (message : List Byte) : Except Fault StockDirectory := do
  return {
    header := ← readHeader message
    stock := ← readChars 8 message 11
    marketCategory := ← byteAt message 19
    financialStatusIndicator := ← byteAt message 20
    roundLotSize := ← readBE 4 message 21
    roundLotsOnly := ← byteAt message 25
    issueClassification := ← byteAt message 26
    issueSubType := ← readChars 2 message 27
    authenticity := ← byteAt message 29
    shortSaleThresholdIndicator := ← byteAt message 30
    ipoFlag := ← byteAt message 31
    luldReferencePriceTier := ← byteAt message 32
    etpFlag := ← byteAt message 33
    etpLeverageFactor := ← readBE 4 message 34
    inverseIndicator := ← byteAt message 38 }

def readTradingAction (message : List Byte) : Except Fault TradingAction := do
  return {
    header := ← readHeader message
    stock := ← readChars 8 message 11
    tradingState := ← byteAt message 19
    reserved := ← byteAt message 20
    reason := ← readChars 4 message 21 }

def readAddOrder (message : List Byte) : Except Fault AddOrder := do
  return {
    header := ← readHeader message
    orderReference := ← readBE 8 message 11
    side := toSide (← byteAt message 19)
    shares := ← readBE 4 message 20
    stock := ← readChars 8 message 24
    price := ← readBE 4 message 32 }

def readAddAttributedOrder (message : List Byte) : Except Fault AddAttributedOrder := do
  return {
    header := ← readHeader message
    orderReference := ← readBE 8 message 11
    side := toSide (← byteAt message 19)
    shares := ← readBE 4 message 20
    stock := ← readChars 8 message 24
    price := ← readBE 4 message 32
    attribution := ← readChars 4 message 36 }

def readOrderExecuted (message : List Byte) : Except Fault OrderExecuted := do
  return {
    header := ← readHeader message
    orderReference := ← readBE 8 message 11
    executedShares := ← readBE 4 message 19
    matchNumber := ← readBE 8 message 23 }

def readOrderExecutedWithPrice (message : List Byte) : Except Fault OrderExecutedWithPrice := do
  return {
    header := ← readHeader message
    orderReference := ← readBE 8 message 11
    executedShares := ← readBE 4 message 19
    matchNumber := ← readBE 8 message 23
    printable := ← byteAt message 31
    executionPrice := ← readBE 4 message 32 }

def readOrderCancel (message : List Byte) : Except Fault OrderCancel := do
  return {
    header := ← readHeader message
    orderReference := ← readBE 8 message 11
    canceledShares := ← readBE 4 message 19 }

def readOrderDelete (message : List Byte) : Except Fault OrderDelete := do
  return {
    header := ← readHeader message
    orderReference := ← readBE 8 message 11 }

def readOrderReplace (message : List Byte) : Except Fault OrderReplace := do
  return {
    header := ← readHeader message
    originalOrderReference := ← readBE 8 message 11
    newOrderReference := ← readBE 8 message 19
    shares := ← readBE 4 message 27
    price := ← readBE 4 message 31 }

def readTrade (message : List Byte) : Except Fault Trade := do
  return {
    header := ← readHeader message
    orderReference := ← readBE 8 message 11
    side := toSide (← byteAt message 19)
    shares := ← readBE 4 message 20
    stock := ← readChars 8 message 24
    price := ← readBE 4 message 32
    matchNumber := ← readBE 8 message 36 }

def readCrossTrade (message : List Byte) : Except Fault CrossTrade := do
  return {
    header := ← readHeader message
    shares := ← readBE 8 message 11
    stock := ← readChars 8 message 19
    crossPrice := ← readBE 4 message 27
    matchNumber := ← readBE 8 message 31
    crossType := ← byteAt message 39 }

def readBrokenTrade (message : List Byte) : Except Fault BrokenTrade := do
  return {
    header := ← readHeader message
    matchNumber := ← readBE 8 message 11 }

def readNetOrderImbalance (message : List Byte) : Except Fault NetOrderImbalance := do
  return {
    header := ← readHeader message
    pairedShares := ← readBE 8 message 11
    imbalanceShares := ← readBE 8 message 19
    imbalanceDirection := ← byteAt message 27
    stock := ← readChars 8 message 28
    farPrice := ← readBE 4 message 36
    nearPrice := ← readBE 4 message 40
    currentReferencePrice := ← readBE 4 message 44
    crossType := ← byteAt message 48
    priceVariationIndicator := ← byteAt message 49 }

def readSkippedMessage (type : Byte) (message : List Byte) : Except Fault SkippedMessage := do
  if message.length ≥ commonHeaderBytes then return ⟨type, some (← readHeader message)⟩
  else return ⟨type, none⟩

/-! ## Messages -/

/-- A case of the switch: the length is checked, then the body is read. -/
def decodeSized {α : Type} (size : ℕ) (read : List Byte → Except Fault α) (event : α → ItchEvent)
    (message : List Byte) (bytesConsumed : ℕ) : Except Fault DecodeResult := do
  if message.length ≠ size then return wrongSize
  return complete (event (← read message)) bytesConsumed

/-- A case with a side in byte 19, which is checked after the length. -/
def decodeSided {α : Type} (size : ℕ) (reason : String) (read : List Byte → Except Fault α)
    (event : α → ItchEvent) (message : List Byte) (bytesConsumed : ℕ) :
    Except Fault DecodeResult := do
  if message.length ≠ size then return wrongSize
  if !validSide (← byteAt message 19) then
    return error .InvalidSide (framePrefixBytes + 19) reason
  return complete (event (← read message)) bytesConsumed

def decodeMessage (message : List Byte) (bytesConsumed : ℕ) : Except Fault DecodeResult := do
  let type ← byteAt message 0
  if type = ascii 'S' then
    decodeSized 12 readSystemEvent .systemEvent message bytesConsumed
  else if type = ascii 'R' then
    decodeSized 39 readStockDirectory .stockDirectory message bytesConsumed
  else if type = ascii 'H' then
    decodeSized 25 readTradingAction .tradingAction message bytesConsumed
  else if type = ascii 'A' then
    decodeSided 36 "add order side must be B or S" readAddOrder .addOrder message bytesConsumed
  else if type = ascii 'F' then
    decodeSided 40 "attributed add order side must be B or S" readAddAttributedOrder
      .addAttributedOrder message bytesConsumed
  else if type = ascii 'E' then
    decodeSized 31 readOrderExecuted .orderExecuted message bytesConsumed
  else if type = ascii 'C' then
    decodeSized 36 readOrderExecutedWithPrice .orderExecutedWithPrice message bytesConsumed
  else if type = ascii 'X' then
    decodeSized 23 readOrderCancel .orderCancel message bytesConsumed
  else if type = ascii 'D' then
    decodeSized 19 readOrderDelete .orderDelete message bytesConsumed
  else if type = ascii 'U' then
    decodeSized 35 readOrderReplace .orderReplace message bytesConsumed
  else if type = ascii 'P' then
    decodeSided 44 "trade side must be B or S" readTrade .trade message bytesConsumed
  else if type = ascii 'Q' then
    decodeSized 40 readCrossTrade .crossTrade message bytesConsumed
  else if type = ascii 'B' then
    decodeSized 19 readBrokenTrade .brokenTrade message bytesConsumed
  else if type = ascii 'I' then
    decodeSized 50 readNetOrderImbalance .netOrderImbalance message bytesConsumed
  else return complete (.skippedMessage (← readSkippedMessage type message)) bytesConsumed

/-- `ItchDecoder::decode_next` -/
def decodeNext (input : List Byte) : Except Fault DecodeResult := do
  if input.length < framePrefixBytes then return needMoreData
  let messageLength := (← readBE 2 input 0).toNat
  if messageLength = 0 then
    return error .InvalidFrameLength 0 "ITCH frame length must include a message type byte"
  let totalLength := framePrefixBytes + messageLength
  if input.length < totalLength then return needMoreData
  let message := (input.drop framePrefixBytes).take messageLength
  decodeMessage message totalLength

end Itch

end Lob
