import Lob.Itch.Encoder

/-!
# The decoder is lossless

Each read of the decoder is the field of the layout at its offset, so that a message body is read as
its layout says. The layouts are lossless, and with them the decoder: what is encoded decodes to
itself, and what decodes is what its event encodes to.
-/

namespace Lob

open Basis

namespace Itch

/-! ## Reads -/

section Reads

variable {w count : ℕ} {bytes message : List Byte} {offset : ℕ}

theorem byteAt_ok (h : offset < bytes.length) :
    byteAt bytes offset = .ok (Field.symbol.decode (bytes.drop offset)) := by
  unfold byteAt
  rw [List.getElem?_eq_getElem h, List.drop_eq_getElem_cons h]
  rfl

theorem readBytes_ok (h : offset + count ≤ bytes.length) :
    readBytes w count bytes offset = .ok (ofBigEndian w ((bytes.drop offset).take count)) := by
  unfold readBytes ofBigEndian
  induction count with
  | zero => rfl
  | succ count ih =>
    have hlt : offset + count < bytes.length := by omega
    have hbyte : (bytes.drop offset)[count]? = some bytes[offset + count] := by
      rw [List.getElem?_drop, List.getElem?_eq_getElem hlt]
    rw [List.range_succ, List.foldlM_append, ih (by omega), List.take_add_one, List.foldl_append,
      hbyte]
    unfold byteAt
    simp [List.getElem?_eq_getElem hlt]

theorem readTimestamp_ok (h : offset + 6 ≤ bytes.length) :
    readTimestamp bytes offset = .ok (u48.decode (bytes.drop offset)) := readBytes_ok h

theorem readU16_ok (h : offset + 2 ≤ bytes.length) :
    readBE 2 bytes offset = .ok (u16.decode (bytes.drop offset)) := readBytes_ok h

theorem readU32_ok (h : offset + 4 ≤ bytes.length) :
    readBE 4 bytes offset = .ok (u32.decode (bytes.drop offset)) := readBytes_ok h

theorem readU64_ok (h : offset + 8 ≤ bytes.length) :
    readBE 8 bytes offset = .ok (u64.decode (bytes.drop offset)) := readBytes_ok h

theorem readChars_ok (h : offset + count ≤ bytes.length) :
    readChars count bytes offset = .ok ((Field.symbols count).decode (bytes.drop offset)) := by
  have hbyte : (fun index : Fin count => byteAt bytes (offset + index)) =
      fun index : Fin count => pure ((bytes.drop offset).getD index default) := by
    funext index
    have hlt : offset + index < bytes.length := by have := index.isLt; omega
    unfold byteAt
    rw [List.getD_eq_getElem?_getD, List.getElem?_drop, List.getElem?_eq_getElem hlt]
    rfl
  unfold readChars
  rw [hbyte, Vector.ofFnM_pure]
  rfl

theorem readHeader_ok (h : 11 ≤ message.length) :
    readHeader message = .ok (headerLayout.decode (message.drop 1)) := by
  simp (disch := omega) only [readHeader, readU16_ok, readTimestamp_ok, except_ok_bind,
    headerLayout, Field.map_decode, Field.seq_decode, List.drop_drop]
  rfl

theorem readSkippedMessage_ok (type : Byte) (message : List Byte) :
    ∃ skipped, readSkippedMessage type message = .ok skipped := by
  unfold readSkippedMessage
  by_cases h : message.length ≥ commonHeaderBytes
  · rw [if_pos h, readHeader_ok h]
    exact ⟨_, rfl⟩
  · rw [if_neg h]
    exact ⟨_, rfl⟩

/-! A body of the right length is read as its layout says. -/

theorem readSystemEvent_ok (h : message.length = 12) :
    readSystemEvent message = .ok (systemEventLayout.decode (message.drop 1)) := by
  simp (disch := omega) only [readSystemEvent, readHeader_ok, byteAt_ok, except_ok_bind,
    systemEventLayout, Field.map_decode, Field.seq_decode, List.drop_drop]
  rfl

theorem readStockDirectory_ok (h : message.length = 39) :
    readStockDirectory message = .ok (stockDirectoryLayout.decode (message.drop 1)) := by
  simp (disch := omega) only [readStockDirectory, readHeader_ok, byteAt_ok, readU32_ok,
    readChars_ok, except_ok_bind, stockDirectoryLayout, Field.map_decode, Field.seq_decode,
    List.drop_drop]
  rfl

theorem readTradingAction_ok (h : message.length = 25) :
    readTradingAction message = .ok (tradingActionLayout.decode (message.drop 1)) := by
  simp (disch := omega) only [readTradingAction, readHeader_ok, byteAt_ok, readChars_ok,
    except_ok_bind, tradingActionLayout, Field.map_decode, Field.seq_decode, List.drop_drop]
  rfl

theorem readAddOrder_ok (h : message.length = 36) :
    readAddOrder message = .ok (addOrderLayout.decode (message.drop 1)) := by
  simp (disch := omega) only [readAddOrder, readHeader_ok, byteAt_ok, readU32_ok, readU64_ok,
    readChars_ok, except_ok_bind, addOrderLayout, Field.map_decode, Field.seq_decode,
    List.drop_drop]
  rfl

theorem readAddAttributedOrder_ok (h : message.length = 40) :
    readAddAttributedOrder message = .ok (addAttributedOrderLayout.decode (message.drop 1)) := by
  simp (disch := omega) only [readAddAttributedOrder, readHeader_ok, byteAt_ok, readU32_ok,
    readU64_ok, readChars_ok, except_ok_bind, addAttributedOrderLayout, Field.map_decode,
    Field.seq_decode, List.drop_drop]
  rfl

theorem readOrderExecuted_ok (h : message.length = 31) :
    readOrderExecuted message = .ok (orderExecutedLayout.decode (message.drop 1)) := by
  simp (disch := omega) only [readOrderExecuted, readHeader_ok, readU32_ok, readU64_ok,
    except_ok_bind, orderExecutedLayout, Field.map_decode, Field.seq_decode, List.drop_drop]
  rfl

theorem readOrderExecutedWithPrice_ok (h : message.length = 36) :
    readOrderExecutedWithPrice message =
      .ok (orderExecutedWithPriceLayout.decode (message.drop 1)) := by
  simp (disch := omega) only [readOrderExecutedWithPrice, readHeader_ok, byteAt_ok, readU32_ok,
    readU64_ok, except_ok_bind, orderExecutedWithPriceLayout, Field.map_decode, Field.seq_decode,
    List.drop_drop]
  rfl

theorem readOrderCancel_ok (h : message.length = 23) :
    readOrderCancel message = .ok (orderCancelLayout.decode (message.drop 1)) := by
  simp (disch := omega) only [readOrderCancel, readHeader_ok, readU32_ok, readU64_ok,
    except_ok_bind, orderCancelLayout, Field.map_decode, Field.seq_decode, List.drop_drop]
  rfl

theorem readOrderDelete_ok (h : message.length = 19) :
    readOrderDelete message = .ok (orderDeleteLayout.decode (message.drop 1)) := by
  simp (disch := omega) only [readOrderDelete, readHeader_ok, readU64_ok, except_ok_bind,
    orderDeleteLayout, Field.map_decode, Field.seq_decode, List.drop_drop]
  rfl

theorem readOrderReplace_ok (h : message.length = 35) :
    readOrderReplace message = .ok (orderReplaceLayout.decode (message.drop 1)) := by
  simp (disch := omega) only [readOrderReplace, readHeader_ok, readU32_ok, readU64_ok,
    except_ok_bind, orderReplaceLayout, Field.map_decode, Field.seq_decode, List.drop_drop]
  rfl

theorem readTrade_ok (h : message.length = 44) :
    readTrade message = .ok (tradeLayout.decode (message.drop 1)) := by
  simp (disch := omega) only [readTrade, readHeader_ok, byteAt_ok, readU32_ok, readU64_ok,
    readChars_ok, except_ok_bind, tradeLayout, Field.map_decode, Field.seq_decode, List.drop_drop]
  rfl

theorem readCrossTrade_ok (h : message.length = 40) :
    readCrossTrade message = .ok (crossTradeLayout.decode (message.drop 1)) := by
  simp (disch := omega) only [readCrossTrade, readHeader_ok, byteAt_ok, readU32_ok, readU64_ok,
    readChars_ok, except_ok_bind, crossTradeLayout, Field.map_decode, Field.seq_decode,
    List.drop_drop]
  rfl

theorem readBrokenTrade_ok (h : message.length = 19) :
    readBrokenTrade message = .ok (brokenTradeLayout.decode (message.drop 1)) := by
  simp (disch := omega) only [readBrokenTrade, readHeader_ok, readU64_ok, except_ok_bind,
    brokenTradeLayout, Field.map_decode, Field.seq_decode, List.drop_drop]
  rfl

theorem readNetOrderImbalance_ok (h : message.length = 50) :
    readNetOrderImbalance message = .ok (netOrderImbalanceLayout.decode (message.drop 1)) := by
  simp (disch := omega) only [readNetOrderImbalance, readHeader_ok, byteAt_ok, readU32_ok,
    readU64_ok, readChars_ok, except_ok_bind, netOrderImbalanceLayout, Field.map_decode,
    Field.seq_decode, List.drop_drop]
  rfl

end Reads

/-! ## Cases of the switch -/

/-- The messages of a type decode exactly as its layout says. -/
structure Decodes {α : Type} (type : Byte) (layout : Field Byte α) (event : α → ItchEvent) :
    Prop where
  encoded : ∀ a n, layout.Valid a →
    decodeMessage (type :: layout.encode a) n = .ok (complete (event a) n)
  decoded : ∀ body n e n', decodeMessage (type :: body) n = .ok (complete e n') →
    ∃ a, e = event a ∧ n' = n ∧ body = layout.encode a
  total : ∀ body n, (∃ code offset reason,
      decodeMessage (type :: body) n = .ok (error code offset reason)) ∨
    ∃ e, decodeMessage (type :: body) n = .ok (complete e n)

variable {α : Type} {type : Byte} {size : ℕ} {read : List Byte → Except Fault α} {event : α → ItchEvent}
  {layout : Field Byte α} {reason : String}

theorem complete_inj {e e' : ItchEvent} {n n' : ℕ} (h : complete e n = complete e' n') :
    e = e' ∧ n = n' := by
  unfold complete at h
  simp only [DecodeResult.mk.injEq, Option.some.injEq, DecodedMessage.mk.injEq] at h
  exact h.2.1

theorem error_ne_complete {code : DecodeErrorCode} {offset : ℕ} {e : ItchEvent} {n : ℕ} :
    error code offset reason ≠ complete e n := by
  unfold error complete
  simp

/-- A body of the layout's width is the layout of the value it decodes to. -/
theorem eq_encode_decode (hwidth : layout.width + 1 = size) {type : Byte} {body : List Byte}
    (hsize : (type :: body).length = size) (haccepts : layout.Accepts body) :
    body = layout.encode (layout.decode body) := by
  have hlen : body.length = layout.width := by
    rw [List.length_cons] at hsize
    omega
  rw [layout.encode_decode body (by omega) haccepts, ← hlen, List.take_length]

theorem decodeSized_encoded
    (hread : ∀ {message}, message.length = size → read message = .ok (layout.decode (message.drop 1)))
    (hwidth : layout.width + 1 = size) (type : Byte) {a : α} (n : ℕ) (hvalid : layout.Valid a) :
    decodeSized size read event (type :: layout.encode a) n = .ok (complete (event a) n) := by
  have hsize : (type :: layout.encode a).length = size := by
    rw [List.length_cons, layout.length_encode, hwidth]
  have ha := layout.decode_encode a [] hvalid
  rw [List.append_nil] at ha
  unfold decodeSized
  rw [if_neg (not_not.mpr hsize), hread hsize]
  show Except.ok (complete (event (layout.decode (layout.encode a))) n) = _
  rw [ha]

theorem decodeSized_decoded
    (hread : ∀ {message}, message.length = size → read message = .ok (layout.decode (message.drop 1)))
    (hwidth : layout.width + 1 = size) {type : Byte} {body : List Byte} {n n' : ℕ} {e : ItchEvent}
    (haccepts : layout.Accepts body)
    (h : decodeSized size read event (type :: body) n = .ok (complete e n')) :
    ∃ a, e = event a ∧ n' = n ∧ body = layout.encode a := by
  unfold decodeSized at h
  by_cases hsize : (type :: body).length = size
  swap
  · rw [if_pos hsize] at h
    exact absurd (Except.ok.inj h) error_ne_complete
  rw [if_neg (not_not.mpr hsize), hread hsize] at h
  obtain ⟨rfl, rfl⟩ := complete_inj (Except.ok.inj h)
  exact ⟨_, rfl, rfl, eq_encode_decode hwidth hsize haccepts⟩

theorem decodeSized_total
    (hread : ∀ {message}, message.length = size → read message = .ok (layout.decode (message.drop 1)))
    (message : List Byte) (n : ℕ) :
    (∃ code offset reason,
      decodeSized size read event message n = .ok (error code offset reason)) ∨
    ∃ e, decodeSized size read event message n = .ok (complete e n) := by
  unfold decodeSized
  by_cases hsize : message.length = size
  · rw [if_neg (not_not.mpr hsize), hread hsize]
    exact Or.inr ⟨_, rfl⟩
  · rw [if_pos hsize]
    exact Or.inl ⟨_, _, _, rfl⟩

theorem decodeSized_decodes
    (hcase : ∀ body n, decodeMessage (type :: body) n =
      decodeSized size read event (type :: body) n)
    (hread : ∀ {message}, message.length = size → read message = .ok (layout.decode (message.drop 1)))
    (hwidth : layout.width + 1 = size) (haccepts : ∀ input, layout.Accepts input) :
    Decodes type layout event where
  encoded _ n hvalid := by
    rw [hcase]
    exact decodeSized_encoded hread hwidth type n hvalid
  decoded body n _ _ h := by
    rw [hcase] at h
    exact decodeSized_decoded hread hwidth (haccepts body) h
  total body n := by
    rw [hcase]
    exact decodeSized_total hread _ n

theorem validSide_iff {value : Byte} : validSide value = true ↔ ∃ side, value = sideByte side := by
  unfold validSide
  rw [Bool.or_eq_true, decide_eq_true_iff, decide_eq_true_iff]
  constructor
  · rintro (h | h)
    · exact ⟨.Buy, h⟩
    · exact ⟨.Sell, h⟩
  · rintro ⟨side, rfl⟩
    cases side
    · exact Or.inl rfl
    · exact Or.inr rfl

/-- After its two checks, a case with a side is a case of its size. -/
theorem decodeSided_eq (h19 : 19 < size) {type : Byte} {body : List Byte}
    (hsize : (type :: body).length = size) (n : ℕ) :
    decodeSided size reason read event (type :: body) n =
      if validSide (Field.symbol.decode (body.drop 18)) then
        decodeSized size read event (type :: body) n
      else .ok (error .InvalidSide (framePrefixBytes + 19) reason) := by
  unfold decodeSided decodeSized
  rw [if_neg (not_not.mpr hsize), if_neg (not_not.mpr hsize), byteAt_ok (by omega)]
  show (if (!validSide (Field.symbol.decode (body.drop 18))) = true then _ else _) = _
  cases validSide (Field.symbol.decode (body.drop 18)) <;> rfl

theorem decodeSided_decodes
    (hcase : ∀ body n, decodeMessage (type :: body) n =
      decodeSided size reason read event (type :: body) n)
    (hread : ∀ {message}, message.length = size → read message = .ok (layout.decode (message.drop 1)))
    (hwidth : layout.width + 1 = size) (h19 : 19 < size)
    (haccepts : ∀ body, layout.Accepts body ↔
      ∃ side, Field.symbol.decode (body.drop 18) = sideByte side) :
    Decodes type layout event where
  encoded a n hvalid := by
    have hsize : (type :: layout.encode a).length = size := by
      rw [List.length_cons, layout.length_encode, hwidth]
    have hside := layout.accepts_encode a []
    rw [List.append_nil, haccepts, ← validSide_iff] at hside
    rw [hcase, decodeSided_eq h19 hsize, if_pos hside, decodeSized_encoded hread hwidth type n hvalid]
  decoded body n e n' h := by
    rw [hcase] at h
    by_cases hsize : (type :: body).length = size
    swap
    · unfold decodeSided at h
      rw [if_pos hsize] at h
      exact absurd (Except.ok.inj h) error_ne_complete
    rw [decodeSided_eq h19 hsize] at h
    by_cases hside : validSide (Field.symbol.decode (body.drop 18)) = true
    · rw [if_pos hside] at h
      rw [validSide_iff, ← haccepts] at hside
      exact decodeSized_decoded hread hwidth hside h
    · rw [if_neg hside] at h
      exact absurd (Except.ok.inj h) error_ne_complete
  total body n := by
    rw [hcase]
    by_cases hsize : (type :: body).length = size
    swap
    · unfold decodeSided
      rw [if_pos hsize]
      exact Or.inl ⟨_, _, _, rfl⟩
    rw [decodeSided_eq h19 hsize]
    by_cases hside : validSide (Field.symbol.decode (body.drop 18)) = true
    · rw [if_pos hside]
      exact decodeSized_total hread _ n
    · rw [if_neg hside]
      exact Or.inl ⟨_, _, _, rfl⟩

/-! Every case of the switch. -/

theorem systemEvent_decodes : Decodes (ascii 'S') systemEventLayout .systemEvent :=
  decodeSized_decodes (fun _ _ => rfl) readSystemEvent_ok rfl fun _ => by simp [systemEventLayout]

theorem stockDirectory_decodes : Decodes (ascii 'R') stockDirectoryLayout .stockDirectory :=
  decodeSized_decodes (fun _ _ => rfl) readStockDirectory_ok rfl fun _ => by
    simp [stockDirectoryLayout]

theorem tradingAction_decodes : Decodes (ascii 'H') tradingActionLayout .tradingAction :=
  decodeSized_decodes (fun _ _ => rfl) readTradingAction_ok rfl fun _ => by
    simp [tradingActionLayout]

theorem addOrder_decodes : Decodes (ascii 'A') addOrderLayout .addOrder :=
  decodeSided_decodes (fun _ _ => rfl) readAddOrder_ok rfl (by decide) fun _ => by
    simp [addOrderLayout]; rfl

theorem addAttributedOrder_decodes :
    Decodes (ascii 'F') addAttributedOrderLayout .addAttributedOrder :=
  decodeSided_decodes (fun _ _ => rfl) readAddAttributedOrder_ok rfl (by decide) fun _ => by
    simp [addAttributedOrderLayout]; rfl

theorem orderExecuted_decodes : Decodes (ascii 'E') orderExecutedLayout .orderExecuted :=
  decodeSized_decodes (fun _ _ => rfl) readOrderExecuted_ok rfl fun _ => by
    simp [orderExecutedLayout]

theorem orderExecutedWithPrice_decodes :
    Decodes (ascii 'C') orderExecutedWithPriceLayout .orderExecutedWithPrice :=
  decodeSized_decodes (fun _ _ => rfl) readOrderExecutedWithPrice_ok rfl fun _ => by
    simp [orderExecutedWithPriceLayout]

theorem orderCancel_decodes : Decodes (ascii 'X') orderCancelLayout .orderCancel :=
  decodeSized_decodes (fun _ _ => rfl) readOrderCancel_ok rfl fun _ => by simp [orderCancelLayout]

theorem orderDelete_decodes : Decodes (ascii 'D') orderDeleteLayout .orderDelete :=
  decodeSized_decodes (fun _ _ => rfl) readOrderDelete_ok rfl fun _ => by simp [orderDeleteLayout]

theorem orderReplace_decodes : Decodes (ascii 'U') orderReplaceLayout .orderReplace :=
  decodeSized_decodes (fun _ _ => rfl) readOrderReplace_ok rfl fun _ => by simp [orderReplaceLayout]

theorem trade_decodes : Decodes (ascii 'P') tradeLayout .trade :=
  decodeSided_decodes (fun _ _ => rfl) readTrade_ok rfl (by decide) fun _ => by
    simp [tradeLayout]; rfl

theorem crossTrade_decodes : Decodes (ascii 'Q') crossTradeLayout .crossTrade :=
  decodeSized_decodes (fun _ _ => rfl) readCrossTrade_ok rfl fun _ => by simp [crossTradeLayout]

theorem brokenTrade_decodes : Decodes (ascii 'B') brokenTradeLayout .brokenTrade :=
  decodeSized_decodes (fun _ _ => rfl) readBrokenTrade_ok rfl fun _ => by simp [brokenTradeLayout]

theorem netOrderImbalance_decodes :
    Decodes (ascii 'I') netOrderImbalanceLayout .netOrderImbalance :=
  decodeSized_decodes (fun _ _ => rfl) readNetOrderImbalance_ok rfl fun _ => by
    simp [netOrderImbalanceLayout]

/-! ## Messages -/

/-- The type and the body of the message of an event. -/
def typeAndBody : ItchEvent → Option (Byte × List Byte)
  | .systemEvent e => some (ascii 'S', systemEventLayout.encode e)
  | .stockDirectory e => some (ascii 'R', stockDirectoryLayout.encode e)
  | .tradingAction e => some (ascii 'H', tradingActionLayout.encode e)
  | .addOrder e => some (ascii 'A', addOrderLayout.encode e)
  | .addAttributedOrder e => some (ascii 'F', addAttributedOrderLayout.encode e)
  | .orderExecuted e => some (ascii 'E', orderExecutedLayout.encode e)
  | .orderExecutedWithPrice e => some (ascii 'C', orderExecutedWithPriceLayout.encode e)
  | .orderCancel e => some (ascii 'X', orderCancelLayout.encode e)
  | .orderDelete e => some (ascii 'D', orderDeleteLayout.encode e)
  | .orderReplace e => some (ascii 'U', orderReplaceLayout.encode e)
  | .trade e => some (ascii 'P', tradeLayout.encode e)
  | .crossTrade e => some (ascii 'Q', crossTradeLayout.encode e)
  | .brokenTrade e => some (ascii 'B', brokenTradeLayout.encode e)
  | .netOrderImbalance e => some (ascii 'I', netOrderImbalanceLayout.encode e)
  | .skippedMessage _ => none

theorem appendHeader_append (type : Byte) (header : MessageHeader) (rest : List Byte) :
    appendHeader type header ++ rest = type :: (headerLayout.encode header ++ rest) := by
  unfold appendHeader headerLayout
  simp [Field.map, Field.seq, Field.number, appendU16, appendU48]

/-- The encoder writes the layouts. -/
theorem encodeMessage_eq (event : ItchEvent) :
    encodeMessage event = (typeAndBody event).map fun x => x.1 :: x.2 := by
  unfold encodeMessage typeAndBody
  cases event <;>
    simp only [List.append_assoc, appendHeader_append, Option.map_some, Option.map_none] <;> rfl

/-- The longest message has 50 bytes. -/
theorem typeAndBody_length {event : ItchEvent} {type : Byte} {body : List Byte}
    (h : typeAndBody event = some (type, body)) : body.length + 1 ≤ 50 := by
  unfold typeAndBody at h
  cases event <;> cases h <;> rw [Field.length_encode] <;> decide

theorem decodeMessage_encoded {event : ItchEvent} {type : Byte} {body : List Byte} (n : ℕ)
    (h : typeAndBody event = some (type, body))
    (htime : ∀ h, header event = some h → h.timestamp.toNat < 2 ^ 48) :
    decodeMessage (type :: body) n = .ok (complete event n) := by
  cases event with
  | systemEvent e =>
    cases h
    exact systemEvent_decodes.encoded e n
      (by simpa [systemEventLayout] using htime _ rfl)
  | stockDirectory e =>
    cases h
    exact stockDirectory_decodes.encoded e n
      (by simpa [stockDirectoryLayout] using htime _ rfl)
  | tradingAction e =>
    cases h
    exact tradingAction_decodes.encoded e n
      (by simpa [tradingActionLayout] using htime _ rfl)
  | addOrder e =>
    cases h
    exact addOrder_decodes.encoded e n (by simpa [addOrderLayout] using htime _ rfl)
  | addAttributedOrder e =>
    cases h
    exact addAttributedOrder_decodes.encoded e n
      (by simpa [addAttributedOrderLayout] using htime _ rfl)
  | orderExecuted e =>
    cases h
    exact orderExecuted_decodes.encoded e n
      (by simpa [orderExecutedLayout] using htime _ rfl)
  | orderExecutedWithPrice e =>
    cases h
    exact orderExecutedWithPrice_decodes.encoded e n
      (by simpa [orderExecutedWithPriceLayout] using htime _ rfl)
  | orderCancel e =>
    cases h
    exact orderCancel_decodes.encoded e n
      (by simpa [orderCancelLayout] using htime _ rfl)
  | orderDelete e =>
    cases h
    exact orderDelete_decodes.encoded e n
      (by simpa [orderDeleteLayout] using htime _ rfl)
  | orderReplace e =>
    cases h
    exact orderReplace_decodes.encoded e n
      (by simpa [orderReplaceLayout] using htime _ rfl)
  | trade e =>
    cases h
    exact trade_decodes.encoded e n (by simpa [tradeLayout] using htime _ rfl)
  | crossTrade e =>
    cases h
    exact crossTrade_decodes.encoded e n (by simpa [crossTradeLayout] using htime _ rfl)
  | brokenTrade e =>
    cases h
    exact brokenTrade_decodes.encoded e n
      (by simpa [brokenTradeLayout] using htime _ rfl)
  | netOrderImbalance e =>
    cases h
    exact netOrderImbalance_decodes.encoded e n
      (by simpa [netOrderImbalanceLayout] using htime _ rfl)
  | skippedMessage e => cases h

/-- The switch: the type is one of the fourteen, or the message is skipped. -/
theorem decodeMessage_switch (type : Byte) (body : List Byte) :
    (∃ (α : Type) (layout : Field Byte α) (inject : α → ItchEvent), Decodes type layout inject ∧
      ∀ a, typeAndBody (inject a) = some (type, layout.encode a)) ∨
    ∃ skipped, ∀ n, decodeMessage (type :: body) n = .ok (complete (.skippedMessage skipped) n) := by
  by_cases hS : type = ascii 'S'
  · subst hS
    exact Or.inl ⟨_, _, _, systemEvent_decodes, fun _ => rfl⟩
  by_cases hR : type = ascii 'R'
  · subst hR
    exact Or.inl ⟨_, _, _, stockDirectory_decodes, fun _ => rfl⟩
  by_cases hH : type = ascii 'H'
  · subst hH
    exact Or.inl ⟨_, _, _, tradingAction_decodes, fun _ => rfl⟩
  by_cases hA : type = ascii 'A'
  · subst hA
    exact Or.inl ⟨_, _, _, addOrder_decodes, fun _ => rfl⟩
  by_cases hF : type = ascii 'F'
  · subst hF
    exact Or.inl ⟨_, _, _, addAttributedOrder_decodes, fun _ => rfl⟩
  by_cases hE : type = ascii 'E'
  · subst hE
    exact Or.inl ⟨_, _, _, orderExecuted_decodes, fun _ => rfl⟩
  by_cases hC : type = ascii 'C'
  · subst hC
    exact Or.inl ⟨_, _, _, orderExecutedWithPrice_decodes, fun _ => rfl⟩
  by_cases hX : type = ascii 'X'
  · subst hX
    exact Or.inl ⟨_, _, _, orderCancel_decodes, fun _ => rfl⟩
  by_cases hD : type = ascii 'D'
  · subst hD
    exact Or.inl ⟨_, _, _, orderDelete_decodes, fun _ => rfl⟩
  by_cases hU : type = ascii 'U'
  · subst hU
    exact Or.inl ⟨_, _, _, orderReplace_decodes, fun _ => rfl⟩
  by_cases hP : type = ascii 'P'
  · subst hP
    exact Or.inl ⟨_, _, _, trade_decodes, fun _ => rfl⟩
  by_cases hQ : type = ascii 'Q'
  · subst hQ
    exact Or.inl ⟨_, _, _, crossTrade_decodes, fun _ => rfl⟩
  by_cases hB : type = ascii 'B'
  · subst hB
    exact Or.inl ⟨_, _, _, brokenTrade_decodes, fun _ => rfl⟩
  by_cases hI : type = ascii 'I'
  · subst hI
    exact Or.inl ⟨_, _, _, netOrderImbalance_decodes, fun _ => rfl⟩
  obtain ⟨skipped, hskip⟩ := readSkippedMessage_ok type (type :: body)
  refine Or.inr ⟨skipped, fun n => ?_⟩
  show (if type = ascii 'S' then _ else _) = _
  rw [if_neg hS, if_neg hR, if_neg hH, if_neg hA, if_neg hF, if_neg hE, if_neg hC, if_neg hX,
    if_neg hD, if_neg hU, if_neg hP, if_neg hQ, if_neg hB, if_neg hI, hskip]
  rfl

/-- A modelled event that decodes has the type and the body that were read. -/
theorem decodeMessage_decoded {event : ItchEvent} {type : Byte} {body : List Byte} {n n' : ℕ}
    (h : decodeMessage (type :: body) n = .ok (complete event n'))
    (hmodelled : ∀ message, event ≠ .skippedMessage message) :
    n' = n ∧ typeAndBody event = some (type, body) := by
  rcases decodeMessage_switch type body with ⟨α, layout, inject, hd, htype⟩ | ⟨skipped, hskip⟩
  · obtain ⟨a, rfl, hn, rfl⟩ := hd.decoded _ _ _ _ h
    exact ⟨hn, htype a⟩
  · rw [hskip] at h
    exact absurd (complete_inj (Except.ok.inj h)).1.symm (hmodelled skipped)

/-- A message is an error or an event; it is never read past its end. -/
theorem decodeMessage_total (type : Byte) (body : List Byte) (n : ℕ) :
    (∃ code offset reason,
      decodeMessage (type :: body) n = .ok (error code offset reason)) ∨
    ∃ e, decodeMessage (type :: body) n = .ok (complete e n) := by
  rcases decodeMessage_switch type body with ⟨α, layout, inject, hd, _⟩ | ⟨skipped, hskip⟩
  · exact hd.total body n
  · exact Or.inr ⟨_, hskip n⟩

/-! ## Frames -/

section Frames

variable {input : List Byte}

/-- The message length of a frame. -/
def frameLength (input : List Byte) : ℕ := (u16.decode input).toNat

theorem decodeNext_short (h : input.length < 2) : decodeNext input = .ok needMoreData := by
  unfold decodeNext
  exact if_pos h

/-- The decoder, once the length is there. -/
theorem decodeNext_eq (h : 2 ≤ input.length) : decodeNext input =
    if frameLength input = 0 then .ok (error .InvalidFrameLength 0
      "ITCH frame length must include a message type byte")
    else if input.length < 2 + frameLength input then .ok needMoreData
    else decodeMessage ((input.drop 2).take (frameLength input)) (2 + frameLength input) := by
  unfold decodeNext
  rw [if_neg (show ¬input.length < framePrefixBytes from Nat.not_lt.mpr h),
    readU16_ok (show 0 + 2 ≤ input.length from h)]
  rfl

theorem frameLength_frame {message rest : List Byte} (h : message.length < 2 ^ 16) :
    frameLength (frame message ++ rest) = message.length := by
  unfold frameLength frame
  rw [List.append_assoc]
  show (u16.decode (u16.encode _ ++ _)).toNat = _
  rw [u16.decode_encode _ _ (u16_valid _), BitVec.toNat_ofNat, Nat.mod_eq_of_lt h]

theorem length_frame (message : List Byte) : (frame message).length = 2 + message.length := by
  unfold frame appendU16
  rw [List.length_append, length_bigEndian]

/-- A frame is decoded whatever follows it. -/
theorem decodeNext_frame {message : List Byte} (rest : List Byte) (h0 : message ≠ [])
    (h : message.length < 2 ^ 16) :
    decodeNext (frame message ++ rest) = decodeMessage message (frame message).length := by
  have hlen : (frame message ++ rest).length = 2 + message.length + rest.length := by
    rw [List.length_append, length_frame]
  have hdrop : (frame message ++ rest).drop 2 = message ++ rest := by
    unfold frame
    rw [List.append_assoc]
    exact List.drop_left' (length_bigEndian 2 _)
  rw [decodeNext_eq (by omega), frameLength_frame h, if_neg, if_neg (by omega), hdrop,
    List.take_left, length_frame]
  exact fun e => h0 (List.length_eq_zero_iff.mp e)

/-- A complete message is the frame at the front of the input. -/
theorem decodeNext_complete {event : ItchEvent} {n : ℕ}
    (h : decodeNext input = .ok (complete event n)) :
    frameLength input ≠ 0 ∧ 2 + frameLength input ≤ input.length ∧
      decodeMessage ((input.drop 2).take (frameLength input)) (2 + frameLength input) =
        .ok (complete event n) := by
  by_cases hshort : input.length < 2
  · rw [decodeNext_short hshort] at h
    cases h
  rw [decodeNext_eq (Nat.not_lt.mp hshort)] at h
  by_cases h0 : frameLength input = 0
  · rw [if_pos h0] at h
    exact absurd (Except.ok.inj h) error_ne_complete
  rw [if_neg h0] at h
  by_cases hmore : input.length < 2 + frameLength input
  · rw [if_pos hmore] at h
    cases h
  rw [if_neg hmore] at h
  exact ⟨h0, Nat.not_lt.mp hmore, h⟩

/-- The frame at the front of the input, put together again. -/
theorem frame_take (h : 2 + frameLength input ≤ input.length) :
    frame ((input.drop 2).take (frameLength input)) = input.take (2 + frameLength input) := by
  have hlen : ((input.drop 2).take (frameLength input)).length = frameLength input := by
    rw [List.length_take, List.length_drop]
    omega
  unfold frame
  rw [hlen, List.take_add]
  congr 1
  unfold frameLength
  rw [BitVec.ofNat_toNat, BitVec.setWidth_eq]
  exact u16.encode_decode input (by show 2 ≤ _; omega) trivial

end Frames

/-! ## Both round trips -/

/-- What is encoded decodes to itself. -/
theorem decodeNext_encode {event : ItchEvent} {bytes : List Byte} (rest : List Byte)
    (h : encode event = some bytes)
    (htime : ∀ h, header event = some h → h.timestamp.toNat < 2 ^ 48) :
    decodeNext (bytes ++ rest) = .ok (complete event bytes.length) := by
  unfold encode at h
  rw [encodeMessage_eq, Option.map_map] at h
  obtain ⟨⟨type, body⟩, htype, rfl⟩ := Option.map_eq_some_iff.mp h
  have hlen := typeAndBody_length htype
  show decodeNext (frame (type :: body) ++ rest) = .ok (complete event (frame (type :: body)).length)
  rw [decodeNext_frame rest (List.cons_ne_nil _ _) (by rw [List.length_cons]; omega),
    decodeMessage_encoded _ htype htime]

/-- What decodes to a modelled event is its encoding. -/
theorem encode_of_decodeNext {input : List Byte} {event : ItchEvent} {n : ℕ}
    (h : decodeNext input = .ok (complete event n))
    (hmodelled : ∀ message, event ≠ .skippedMessage message) :
    encode event = some (input.take n) := by
  obtain ⟨h0, hlen, hmessage⟩ := decodeNext_complete h
  have hframe := frame_take hlen
  cases hm : (input.drop 2).take (frameLength input) with
  | nil =>
    have := congrArg List.length hm
    rw [List.length_take, List.length_drop] at this
    exact absurd (show frameLength input = 0 by simp at this; omega) h0
  | cons type body =>
    rw [hm] at hmessage hframe
    obtain ⟨rfl, htype⟩ := decodeMessage_decoded hmessage hmodelled
    unfold encode
    rw [encodeMessage_eq, htype, ← hframe]
    rfl

theorem exists_encode {event : ItchEvent}
    (hmodelled : ∀ message, event ≠ .skippedMessage message) :
    ∃ bytes, encode event = some bytes := by
  cases event with
  | skippedMessage message => exact absurd rfl (hmodelled message)
  | _ => exact ⟨_, rfl⟩

/-- **The decoder is lossless.** Every modelled event with a 48-bit timestamp decodes from its
encoding, whatever follows; the bytes a modelled event is decoded from are its encoding, so that two
inputs with the same event have the same bytes. -/
theorem decodeNext_lossless :
    (∀ event, (∀ message, event ≠ .skippedMessage message) →
      (∀ h, header event = some h → h.timestamp.toNat < 2 ^ 48) →
      ∃ bytes, encode event = some bytes ∧
        ∀ rest, decodeNext (bytes ++ rest) = .ok (complete event bytes.length)) ∧
    (∀ input event n, decodeNext input = .ok (complete event n) →
      (∀ message, event ≠ .skippedMessage message) → encode event = some (input.take n)) ∧
    ∀ input input' event n n', decodeNext input = .ok (complete event n) →
      decodeNext input' = .ok (complete event n') →
      (∀ message, event ≠ .skippedMessage message) → input.take n = input'.take n' := by
  refine ⟨fun event hmodelled htime => ?_,
    fun _ _ _ h hmodelled => encode_of_decodeNext h hmodelled,
    fun input input' event n n' h h' hmodelled => ?_⟩
  · obtain ⟨bytes, hbytes⟩ := exists_encode hmodelled
    exact ⟨bytes, hbytes, fun rest => decodeNext_encode rest hbytes htime⟩
  · have he := encode_of_decodeNext h hmodelled
    rw [encode_of_decodeNext h' hmodelled] at he
    exact (Option.some.inj he).symm

end Itch

end Lob
