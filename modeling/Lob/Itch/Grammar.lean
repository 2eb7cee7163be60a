import Lob.Itch.Streaming

/-!
# The grammar of a frame

`decodeNext` is total and reads inside its input. What it waits for, what it refuses and what it takes
is said by the length of the frame, its type and the side byte alone.
-/

namespace Lob

open Basis

namespace Itch

/-! ## Types -/

/-- The modelled types and the ITCH 5.0 lengths of their messages. -/
def itchLengths : List (Byte × ℕ) :=
  [(ascii 'S', 12), (ascii 'R', 39), (ascii 'H', 25), (ascii 'A', 36), (ascii 'F', 40),
    (ascii 'E', 31), (ascii 'C', 36), (ascii 'X', 23), (ascii 'D', 19), (ascii 'U', 35),
    (ascii 'P', 44), (ascii 'Q', 40), (ascii 'B', 19), (ascii 'I', 50)]

def itchLength (type : Byte) : Option ℕ := itchLengths.lookup type

/-- The types with a side, which is in byte 19 of the message. -/
def Sided (type : Byte) : Prop := type = ascii 'A' ∨ type = ascii 'F' ∨ type = ascii 'P'

/-- There is a side in a byte of the input. -/
def SideAt (input : List Byte) (offset : ℕ) : Prop :=
  input[offset]? = some (ascii 'B') ∨ input[offset]? = some (ascii 'S')

/-! ## Messages -/

/-- What becomes of a message of a modelled type. -/
inductive Verdict (type : Byte) (size : ℕ) (message : List Byte) (n : ℕ) : DecodeResult → Prop where
  | length (h : message.length ≠ size) : Verdict type size message n wrongSize
  | side (reason : String) (h : message.length = size) (hsided : Sided type)
      (hside : ¬SideAt message 19) :
      Verdict type size message n (error .InvalidSide 21 reason)
  | complete (event : ItchEvent) (h : message.length = size) (hside : Sided type → SideAt message 19)
      (hevent : ∀ skipped, event ≠ .skippedMessage skipped) :
      Verdict type size message n (complete event n)

section Verdicts

variable {α : Type} {type : Byte} {size : ℕ} {read : List Byte → Except Fault α} {event : α → ItchEvent}
  {decode : List Byte → α} {reason : String} {message : List Byte}

theorem decodeSized_verdict (hunsided : ¬Sided type)
    (hread : ∀ {message}, message.length = size → read message = .ok (decode (message.drop 1)))
    (hevent : ∀ a skipped, event a ≠ .skippedMessage skipped) (message : List Byte) (n : ℕ) :
    ∃ result, decodeSized size read event message n = .ok result ∧
      Verdict type size message n result := by
  unfold decodeSized
  by_cases hsize : message.length = size
  · rw [if_neg (not_not.mpr hsize), hread hsize]
    exact ⟨_, rfl, .complete _ hsize (fun h => absurd h hunsided) (hevent _)⟩
  · rw [if_pos hsize]
    exact ⟨_, rfl, .length hsize⟩

theorem validSide_sideAt {value : Byte} {offset : ℕ} (h : message[offset]? = some value) :
    validSide value = true ↔ SideAt message offset := by
  unfold validSide SideAt
  rw [h, Bool.or_eq_true, decide_eq_true_iff, decide_eq_true_iff, Option.some.injEq, Option.some.injEq]
  rfl

theorem decodeSided_verdict (hsided : Sided type) (h19 : 19 < size)
    (hread : ∀ {message}, message.length = size → read message = .ok (decode (message.drop 1)))
    (hevent : ∀ a skipped, event a ≠ .skippedMessage skipped) (message : List Byte) (n : ℕ) :
    ∃ result, decodeSided size reason read event message n = .ok result ∧
      Verdict type size message n result := by
  unfold decodeSided
  by_cases hsize : message.length = size
  swap
  · rw [if_pos hsize]
    exact ⟨_, rfl, .length hsize⟩
  have hbyte : message[19]? = some message[19] := List.getElem?_eq_getElem (by omega)
  have hvalid := validSide_sideAt hbyte
  have hread19 : byteAt message 19 = .ok message[19] := by
    unfold byteAt
    rw [hbyte]
    rfl
  rw [if_neg (not_not.mpr hsize), hread19, hread hsize]
  by_cases hside : SideAt message 19
  · refine ⟨complete (event (decode (message.drop 1))) n, ?_, .complete _ hsize (fun _ => hside)
      (hevent _)⟩
    show (if (!validSide message[19]) = true then _ else _) = _
    rw [hvalid.mpr hside]
    rfl
  · refine ⟨error .InvalidSide 21 reason, ?_, .side reason hsize hsided hside⟩
    show (if (!validSide message[19]) = true then _ else _) = _
    rw [Bool.eq_false_iff.mpr fun h => hside (hvalid.mp h)]
    rfl

end Verdicts

theorem readSkippedMessage_eq (type : Byte) (message : List Byte) :
    ∃ header, readSkippedMessage type message = .ok ⟨type, header⟩ ∧
      (header.isSome ↔ 11 ≤ message.length) := by
  unfold readSkippedMessage
  by_cases h : message.length ≥ commonHeaderBytes
  · rw [if_pos h, readHeader_ok h]
    exact ⟨_, rfl, iff_of_true rfl h⟩
  · rw [if_neg h]
    exact ⟨_, rfl, iff_of_false Bool.false_ne_true h⟩

instance (type : Byte) : Decidable (Sided type) := by unfold Sided; infer_instance

/-- **The switch**: a message of a type that is not modelled is skipped. -/
theorem decodeMessage_verdict (type : Byte) :
    (itchLength type = none ∧ ∀ body n, ∃ header,
      decodeMessage (type :: body) n = .ok (complete (.skippedMessage ⟨type, header⟩) n) ∧
        (header.isSome ↔ 11 ≤ (type :: body).length)) ∨
    ∃ size, itchLength type = some size ∧ ∀ body n, ∃ result,
      decodeMessage (type :: body) n = .ok result ∧ Verdict type size (type :: body) n result := by
  by_cases hS : type = ascii 'S'
  · subst hS
    exact Or.inr ⟨_, rfl, fun body => decodeSized_verdict (by decide) readSystemEvent_ok (by simp) _⟩
  by_cases hR : type = ascii 'R'
  · subst hR
    exact Or.inr ⟨_, rfl, fun body => decodeSized_verdict (by decide)
      readStockDirectory_ok (by simp) _⟩
  by_cases hH : type = ascii 'H'
  · subst hH
    exact Or.inr ⟨_, rfl, fun body => decodeSized_verdict (by decide) readTradingAction_ok (by simp) _⟩
  by_cases hA : type = ascii 'A'
  · subst hA
    exact Or.inr ⟨_, rfl, fun body => decodeSided_verdict (by decide) (by decide)
      readAddOrder_ok (by simp) _⟩
  by_cases hF : type = ascii 'F'
  · subst hF
    exact Or.inr ⟨_, rfl, fun body => decodeSided_verdict (by decide) (by decide)
      readAddAttributedOrder_ok (by simp) _⟩
  by_cases hE : type = ascii 'E'
  · subst hE
    exact Or.inr ⟨_, rfl, fun body => decodeSized_verdict (by decide) readOrderExecuted_ok (by simp) _⟩
  by_cases hC : type = ascii 'C'
  · subst hC
    exact Or.inr ⟨_, rfl, fun body => decodeSized_verdict (by decide)
      readOrderExecutedWithPrice_ok (by simp) _⟩
  by_cases hX : type = ascii 'X'
  · subst hX
    exact Or.inr ⟨_, rfl, fun body => decodeSized_verdict (by decide) readOrderCancel_ok (by simp) _⟩
  by_cases hD : type = ascii 'D'
  · subst hD
    exact Or.inr ⟨_, rfl, fun body => decodeSized_verdict (by decide) readOrderDelete_ok (by simp) _⟩
  by_cases hU : type = ascii 'U'
  · subst hU
    exact Or.inr ⟨_, rfl, fun body => decodeSized_verdict (by decide) readOrderReplace_ok (by simp) _⟩
  by_cases hP : type = ascii 'P'
  · subst hP
    exact Or.inr ⟨_, rfl, fun body => decodeSided_verdict (by decide) (by decide)
      readTrade_ok (by simp) _⟩
  by_cases hQ : type = ascii 'Q'
  · subst hQ
    exact Or.inr ⟨_, rfl, fun body => decodeSized_verdict (by decide) readCrossTrade_ok (by simp) _⟩
  by_cases hB : type = ascii 'B'
  · subst hB
    exact Or.inr ⟨_, rfl, fun body => decodeSized_verdict (by decide) readBrokenTrade_ok (by simp) _⟩
  by_cases hI : type = ascii 'I'
  · subst hI
    exact Or.inr ⟨_, rfl, fun body => decodeSized_verdict (by decide)
      readNetOrderImbalance_ok (by simp) _⟩
  refine Or.inl ⟨?_, fun body n => ?_⟩
  · unfold itchLength itchLengths
    rw [List.lookup_eq_none_iff]
    simp [*]
  · obtain ⟨header, hskip, hheader⟩ := readSkippedMessage_eq type (type :: body)
    refine ⟨header, ?_, hheader⟩
    show (if type = ascii 'S' then _ else _) = _
    rw [if_neg hS, if_neg hR, if_neg hH, if_neg hA, if_neg hF, if_neg hE, if_neg hC, if_neg hX,
      if_neg hD, if_neg hU, if_neg hP, if_neg hQ, if_neg hB, if_neg hI, hskip]
    rfl

/-! ## Frames -/

/-- The frame is not there yet. -/
def Waits (input : List Byte) : Prop :=
  input.length < 2 ∨ 0 < frameLength input ∧ input.length < 2 + frameLength input

/-- The type is modelled and the length is not the one of its messages. -/
def BadLength (input : List Byte) : Prop :=
  ∃ type size, input[2]? = some type ∧ itchLength type = some size ∧ frameLength input ≠ size

/-- The length is right and there is no side where the type has one. -/
def BadSide (input : List Byte) : Prop :=
  ∃ type, input[2]? = some type ∧ itchLength type = some (frameLength input) ∧ Sided type ∧
    ¬SideAt input 21

/-- The result that the frame at the front of the input deserves. -/
structure Grammatical (input : List Byte) (result : DecodeResult) : Prop where
  needMoreData : result.status = .NeedMoreData ↔ Waits input
  error : result.status = .Error ↔
    ¬Waits input ∧ (frameLength input = 0 ∨ BadLength input ∨ BadSide input)
  complete : result.status = .Complete ↔
    ¬Waits input ∧ ¬(frameLength input = 0 ∨ BadLength input ∨ BadSide input)
  errorPresent : result.error.isSome ↔ result.status = .Error
  errorCode : ∀ e, result.error = some e → e.offset < input.length ∧
    (e.code = .InvalidFrameLength ↔ frameLength input = 0) ∧
    (e.code = .UnexpectedMessageLength ↔ frameLength input ≠ 0 ∧ BadLength input) ∧
    (e.code = .InvalidSide ↔ frameLength input ≠ 0 ∧ BadSide input)
  messagePresent : result.message.isSome ↔ result.status = .Complete
  message : ∀ m, result.message = some m → m.bytesConsumed = 2 + frameLength input ∧
    3 ≤ m.bytesConsumed ∧ m.bytesConsumed ≤ input.length ∧ ∃ type, input[2]? = some type ∧
      ((∃ skipped, m.event = .skippedMessage skipped) ↔ itchLength type = none) ∧
      ∀ skipped, m.event = .skippedMessage skipped → skipped.messageType = type ∧
        (skipped.header.isSome ↔ 11 ≤ frameLength input)

section Frames

variable {input : List Byte} {type : Byte}

theorem frameLength_cons (high low : Byte) (rest : List Byte) :
    frameLength (high :: low :: rest) = 256 * high.toNat + low.toNat := by
  show (ofBigEndian 16 [high, low]).toNat = _
  rw [toNat_ofBigEndian (Nat.le_refl 16)]
  show high.toNat * 256 ^ 1 + (low.toNat * 256 ^ 0 + 0) = _
  omega

/-- The message of a frame that is there. -/
theorem exists_message (h : ¬Waits input) (h0 : frameLength input ≠ 0) : ∃ type body,
    input[2]? = some type ∧ (input.drop 2).take (frameLength input) = type :: body ∧
      (type :: body).length = frameLength input ∧
      (19 < frameLength input → (SideAt (type :: body) 19 ↔ SideAt input 21)) := by
  unfold Waits at h
  have hlen : ((input.drop 2).take (frameLength input)).length = frameLength input := by
    rw [List.length_take, List.length_drop]
    omega
  have hget : ∀ i < frameLength input,
      ((input.drop 2).take (frameLength input))[i]? = input[2 + i]? := by
    intro i hi
    rw [List.getElem?_take, if_pos hi, List.getElem?_drop]
  cases hm : (input.drop 2).take (frameLength input) with
  | nil =>
    rw [hm, List.length_nil] at hlen
    exact absurd hlen.symm h0
  | cons type body =>
    rw [hm] at hlen hget
    refine ⟨type, body, (hget 0 (Nat.pos_of_ne_zero h0)).symm, rfl, hlen, fun h19 => ?_⟩
    unfold SideAt
    rw [hget 19 h19]

theorem sided_length {size : ℕ} (hsided : Sided type) (hsize : itchLength type = some size) :
    19 < size := by
  rcases hsided with rfl | rfl | rfl
  · cases hsize
    decide
  · cases hsize
    decide
  · cases hsize
    decide

theorem grammatical_needMoreData (h : Waits input) : Grammatical input needMoreData where
  needMoreData := iff_of_true rfl h
  error := iff_of_false nofun fun he => he.1 h
  complete := iff_of_false nofun fun hc => hc.1 h
  errorPresent := iff_of_false nofun nofun
  errorCode _ he := nomatch he
  messagePresent := iff_of_false nofun nofun
  message _ hm := nomatch hm

theorem grammatical_error {code : DecodeErrorCode} {offset : ℕ} {reason : String}
    (hwaits : ¬Waits input)
    (hbad : frameLength input = 0 ∨ BadLength input ∨ BadSide input) (hoffset : offset < input.length)
    (hframe : code = .InvalidFrameLength ↔ frameLength input = 0)
    (hlength : code = .UnexpectedMessageLength ↔ frameLength input ≠ 0 ∧ BadLength input)
    (hside : code = .InvalidSide ↔ frameLength input ≠ 0 ∧ BadSide input) :
    Grammatical input (error code offset reason) where
  needMoreData := iff_of_false nofun hwaits
  error := iff_of_true rfl ⟨hwaits, hbad⟩
  complete := iff_of_false nofun fun hc => hc.2 hbad
  errorPresent := iff_of_true rfl rfl
  errorCode _ he := by
    cases he
    exact ⟨hoffset, hframe, hlength, hside⟩
  messagePresent := iff_of_false nofun nofun
  message _ hm := nomatch hm

theorem grammatical_complete {event : ItchEvent} (hwaits : ¬Waits input)
    (hgood : ¬(frameLength input = 0 ∨ BadLength input ∨ BadSide input))
    (htype : input[2]? = some type)
    (hskipped : (∃ skipped, event = .skippedMessage skipped) ↔ itchLength type = none)
    (hheader : ∀ skipped, event = .skippedMessage skipped → skipped.messageType = type ∧
      (skipped.header.isSome ↔ 11 ≤ frameLength input)) :
    Grammatical input (complete event (2 + frameLength input)) where
  needMoreData := iff_of_false nofun hwaits
  error := iff_of_false nofun fun he => hgood he.2
  complete := iff_of_true rfl ⟨hwaits, hgood⟩
  errorPresent := iff_of_false nofun nofun
  errorCode _ he := nomatch he
  messagePresent := iff_of_true rfl rfl
  message m hm := by
    cases hm
    have h0 : frameLength input ≠ 0 := fun h0 => hgood (Or.inl h0)
    unfold Waits at hwaits
    refine ⟨rfl, ?_, ?_, type, htype, hskipped, hheader⟩
    · show 3 ≤ 2 + frameLength input
      omega
    · show 2 + frameLength input ≤ input.length
      omega

/-- A bad length is one of the type that is there. -/
theorem badLength_iff (htype : input[2]? = some type) :
    BadLength input ↔ ∃ size, itchLength type = some size ∧ frameLength input ≠ size := by
  unfold BadLength
  rw [htype]
  constructor
  · rintro ⟨type', size, h, hsize, hne⟩
    cases h
    exact ⟨size, hsize, hne⟩
  · rintro ⟨size, hsize, hne⟩
    exact ⟨type, size, rfl, hsize, hne⟩

theorem badSide_iff (htype : input[2]? = some type) :
    BadSide input ↔ itchLength type = some (frameLength input) ∧ Sided type ∧ ¬SideAt input 21 := by
  unfold BadSide
  rw [htype]
  constructor
  · rintro ⟨type', h, hbad⟩
    cases h
    exact hbad
  · intro hbad
    exact ⟨type, rfl, hbad⟩

/-- The verdict on a message of a modelled type is the one that its frame deserves. -/
theorem grammatical_verdict {size : ℕ} {message : List Byte} {result : DecodeResult}
    (hwaits : ¬Waits input) (h0 : frameLength input ≠ 0) (htype : input[2]? = some type)
    (hsize : itchLength type = some size) (hlen : message.length = frameLength input)
    (hsideAt : 19 < frameLength input → (SideAt message 19 ↔ SideAt input 21))
    (h : Verdict type size message (2 + frameLength input) result) : Grammatical input result := by
  have hlength : BadLength input ↔ frameLength input ≠ size := by
    rw [badLength_iff htype, hsize]
    simp only [Option.some.injEq, exists_eq_left']
  have hside : BadSide input ↔ size = frameLength input ∧ Sided type ∧ ¬SideAt input 21 := by
    rw [badSide_iff htype, hsize, Option.some.injEq]
  have htwo : 2 < input.length := (List.getElem?_eq_some_iff.mp htype).1
  have hroom : 2 + frameLength input ≤ input.length := by
    unfold Waits at hwaits
    omega
  cases h with
  | length hne =>
    rw [hlen] at hne
    have hbad := hlength.mpr hne
    refine grammatical_error hwaits (Or.inr (Or.inl hbad)) htwo (iff_of_false nofun h0)
      (iff_of_true rfl ⟨h0, hbad⟩) (iff_of_false nofun fun hs => ?_)
    exact hne (hside.mp hs.2).1.symm
  | side reason heq hsided hnot =>
    rw [hlen] at heq
    have h19 := sided_length hsided hsize
    have hbad : BadSide input :=
      hside.mpr ⟨heq.symm, hsided, fun hs => hnot ((hsideAt (heq ▸ h19)).mpr hs)⟩
    refine grammatical_error hwaits (Or.inr (Or.inr hbad)) (by omega) (iff_of_false nofun h0)
      (iff_of_false nofun fun hl => ?_) (iff_of_true rfl ⟨h0, hbad⟩)
    exact hlength.mp hl.2 heq
  | complete event heq hok hevent =>
    rw [hlen] at heq
    refine grammatical_complete hwaits ?_ htype ?_ fun skipped h => absurd h (hevent skipped)
    · rintro (hn | hl | hs)
      · exact h0 hn
      · exact hlength.mp hl heq
      · obtain ⟨_, hsided, hnot⟩ := hside.mp hs
        exact hnot ((hsideAt (heq ▸ sided_length hsided hsize)).mp (hok hsided))
    · rw [hsize]
      exact iff_of_false (fun ⟨skipped, h⟩ => hevent skipped h) nofun

/-- The verdict on a message that is skipped. -/
theorem grammatical_skipped {header : Option MessageHeader} (hwaits : ¬Waits input)
    (h0 : frameLength input ≠ 0) (htype : input[2]? = some type) (hnone : itchLength type = none)
    (hheader : header.isSome ↔ 11 ≤ frameLength input) :
    Grammatical input (complete (.skippedMessage ⟨type, header⟩) (2 + frameLength input)) := by
  refine grammatical_complete hwaits ?_ htype (iff_of_true ⟨_, rfl⟩ hnone) ?_
  · rintro (hn | hl | hs)
    · exact h0 hn
    · obtain ⟨size, hsize, _⟩ := (badLength_iff htype).mp hl
      rw [hnone] at hsize
      cases hsize
    · have hsize := ((badSide_iff htype).mp hs).1
      rw [hnone] at hsize
      cases hsize
  · intro skipped h
    cases h
    exact ⟨rfl, hheader⟩

/-- The decoder waits for these inputs and no others. -/
theorem decodeNext_waits (h : Waits input) : decodeNext input = .ok needMoreData := by
  by_cases hshort : input.length < 2
  · exact decodeNext_short hshort
  · unfold Waits at h
    rw [decodeNext_eq (Nat.not_lt.mp hshort), if_neg (by omega), if_pos (by omega)]

/-- Every input has a result, and it is the one that it deserves. -/
theorem exists_grammatical (input : List Byte) :
    ∃ result, decodeNext input = .ok result ∧ Grammatical input result := by
  by_cases hwaits : Waits input
  · exact ⟨_, decodeNext_waits hwaits, grammatical_needMoreData hwaits⟩
  have hlong : 2 ≤ input.length := by
    unfold Waits at hwaits
    omega
  have hroom : ¬input.length < 2 + frameLength input := by
    unfold Waits at hwaits
    omega
  rw [decodeNext_eq hlong]
  by_cases h0 : frameLength input = 0
  · rw [if_pos h0]
    exact ⟨_, rfl, grammatical_error hwaits (Or.inl h0) (by omega) (iff_of_true rfl h0)
      (iff_of_false nofun fun h => h.1 h0) (iff_of_false nofun fun h => h.1 h0)⟩
  obtain ⟨type, body, htype, hmessage, hlen, hsideAt⟩ := exists_message hwaits h0
  rw [if_neg h0, if_neg hroom, hmessage]
  rcases decodeMessage_verdict type with ⟨hnone, hskip⟩ | ⟨size, hsize, hverdict⟩
  · obtain ⟨header, hskip, hheader⟩ := hskip body (2 + frameLength input)
    rw [hlen] at hheader
    exact ⟨_, hskip, grammatical_skipped hwaits h0 htype hnone hheader⟩
  · obtain ⟨result, hresult, hverdict⟩ := hverdict body (2 + frameLength input)
    exact ⟨result, hresult, grammatical_verdict hwaits h0 htype hsize hlen hsideAt hverdict⟩

theorem decodeNext_waits_iff : decodeNext input = .ok needMoreData ↔ Waits input := by
  constructor
  · intro h
    obtain ⟨result, hresult, hg⟩ := exists_grammatical input
    rw [h] at hresult
    cases hresult
    exact hg.needMoreData.mp rfl
  · exact decodeNext_waits

end Frames

/-- **The decoder accepts exactly its grammar**, and no read is outside of the input. -/
theorem decodeNext_grammatical :
    (∀ high low rest, frameLength (high :: low :: rest) = 256 * high.toNat + low.toNat) ∧
    ∀ input, ∃ result, decodeNext input = .ok result ∧ Grammatical input result :=
  ⟨frameLength_cons, exists_grammatical⟩

end Itch

end Lob
