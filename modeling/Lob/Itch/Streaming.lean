import Lob.Itch.RoundTrip
import Lob.Basis.Stream

/-!
# Decoding a stream

A client appends what arrives to its buffer and calls `decodeNext` until more is needed or a frame is
bad. The decoder is stable, so that the client is one of `Basis.Client`, and obtains the same however
the bytes are cut into chunks.
-/

namespace Lob

open Basis

namespace Itch

/-! ## Outcomes -/

section Outcomes

variable {input rest : List Byte}

/-- The decoder waits, fails, or takes a frame that is there. -/
theorem decodeNext_cases (input : List Byte) :
    decodeNext input = .ok needMoreData ∨
      (∃ code offset reason, decodeNext input = .ok (error code offset reason)) ∨
      ∃ e n, decodeNext input = .ok (complete e n) ∧ 0 < n ∧ n ≤ input.length := by
  by_cases hshort : input.length < 2
  · exact Or.inl (decodeNext_short hshort)
  rw [decodeNext_eq (Nat.not_lt.mp hshort)]
  by_cases h0 : frameLength input = 0
  · rw [if_pos h0]
    exact Or.inr (Or.inl ⟨_, _, _, rfl⟩)
  rw [if_neg h0]
  by_cases hmore : input.length < 2 + frameLength input
  · rw [if_pos hmore]
    exact Or.inl rfl
  rw [if_neg hmore]
  cases hm : (input.drop 2).take (frameLength input) with
  | nil =>
    have := congrArg List.length hm
    rw [List.length_take, List.length_drop, List.length_nil] at this
    omega
  | cons type body =>
    rcases decodeMessage_total type body (2 + frameLength input) with herr | ⟨e, he⟩
    · exact Or.inr (Or.inl herr)
    · exact Or.inr (Or.inr ⟨e, _, he, by omega, by omega⟩)

theorem frameLength_append (h : 2 ≤ input.length) :
    frameLength (input ++ rest) = frameLength input := by
  unfold frameLength
  congr 1
  show ofBigEndian 16 ((input ++ rest).take 2) = ofBigEndian 16 (input.take 2)
  rw [List.take_append_of_le_length h]

/-- **More input changes no decision.** -/
theorem decodeNext_append (h : decodeNext input ≠ .ok needMoreData) :
    decodeNext (input ++ rest) = decodeNext input := by
  by_cases hshort : input.length < 2
  · exact absurd (decodeNext_short hshort) h
  have hlen : (input ++ rest).length = input.length + rest.length := List.length_append
  rw [decodeNext_eq (Nat.not_lt.mp hshort)] at h ⊢
  rw [decodeNext_eq (by omega), frameLength_append (Nat.not_lt.mp hshort)]
  by_cases h0 : frameLength input = 0
  · rw [if_pos h0, if_pos h0]
  rw [if_neg h0] at h ⊢
  rw [if_neg h0]
  by_cases hmore : input.length < 2 + frameLength input
  · rw [if_pos hmore] at h
    exact absurd rfl h
  rw [if_neg hmore, if_neg (by omega), List.drop_append_of_le_length (Nat.not_lt.mp hshort),
    List.take_append_of_le_length (by rw [List.length_drop]; omega)]

theorem needMoreData_ne_complete {e : ItchEvent} {n : ℕ} : needMoreData ≠ complete e n := by
  unfold needMoreData complete
  simp

/-- Every proper prefix of a frame waits. -/
theorem decodeNext_prefix {e : ItchEvent}
    (h : decodeNext (input ++ rest) = .ok (complete e (input ++ rest).length)) (hrest : rest ≠ []) :
    decodeNext input = .ok needMoreData := by
  by_contra hne
  rw [decodeNext_append hne] at h
  rcases decodeNext_cases input with hc | ⟨_, _, _, hc⟩ | ⟨e', n, hc, _, hle⟩
  · exact hne hc
  · rw [hc] at h
    exact error_ne_complete (Except.ok.inj h)
  · rw [hc] at h
    have hn := (complete_inj (Except.ok.inj h)).2
    have hpos := List.length_pos_of_ne_nil hrest
    rw [List.length_append] at hn
    omega

end Outcomes

/-! ## The client -/

/-- A client of the decoder: its buffer, the bytes before it, the events, and an error with its code
and place in the stream. -/
abbrev ItchClient := Client Byte (DecodeErrorCode × String) ItchEvent

/-- The calls of `decode_next` after a chunk, for less than `fuel` frames. -/
def drainFrames (fuel : ℕ) (client : ItchClient) : Except Fault ItchClient :=
  match fuel with
  | 0 => .error .outOfFuel
  | fuel + 1 => do
    let result ← decodeNext client.pending
    match result.status with
    | .NeedMoreData => return client
    | .Error =>
      let e ← deref result.error
      return client.fail (e.code, e.reason) e.offset
    | .Complete =>
      let message ← deref result.message
      drainFrames fuel (client.advance message.event message.bytesConsumed)

/-- A frame takes a byte at least, so that the length of the buffer bounds their number. -/
def receiveChunk (client : ItchClient) (chunk : List Byte) : Except Fault ItchClient :=
  if client.failure.isSome then return client
  else drainFrames ((client.append chunk).pending.length + 1) (client.append chunk)

def receiveChunks (chunks : List (List Byte)) : Except Fault ItchClient :=
  chunks.foldlM receiveChunk Client.new

/-- The decoder as a step of a stream. -/
def frameStep (input : List Byte) : Step (DecodeErrorCode × String) ItchEvent :=
  match decodeNext input with
  | .error _ => .wait
  | .ok result =>
    match result.status, result.message, result.error with
    | .Complete, some message, _ => .item message.event message.bytesConsumed
    | .Error, _, some e => .stop (e.code, e.reason) e.offset
    | _, _, _ => .wait

theorem frameStep_wait {input : List Byte} (h : decodeNext input = .ok needMoreData) :
    frameStep input = .wait := by
  unfold frameStep; rw [h]; rfl

theorem frameStep_stop {input : List Byte} {code : DecodeErrorCode} {offset : ℕ} {reason : String}
    (h : decodeNext input = .ok (error code offset reason)) :
    frameStep input = .stop (code, reason) offset := by
  unfold frameStep; rw [h]; rfl

theorem frameStep_item {input : List Byte} {e : ItchEvent} {n : ℕ}
    (h : decodeNext input = .ok (complete e n)) : frameStep input = .item e n := by
  unfold frameStep; rw [h]; rfl

theorem frameStep_stable : Client.Stable frameStep where
  nil := frameStep_wait (decodeNext_short Nat.two_pos)
  count {input a n} h := by
    rcases decodeNext_cases input with hc | ⟨_, _, _, hc⟩ | ⟨e', n', hc, hpos, hle⟩
    · rw [frameStep_wait hc] at h
      cases h
    · rw [frameStep_stop hc] at h
      cases h
    · rw [frameStep_item hc] at h
      cases h
      exact ⟨hpos, hle⟩
  append {input} h rest := by
    have hne : decodeNext input ≠ .ok needMoreData := fun hw => h (frameStep_wait hw)
    unfold frameStep
    rw [decodeNext_append hne]

/-- The client drains as the stream says, and without a fault. -/
theorem drainFrames_ok (fuel : ℕ) (client : ItchClient) (h : client.pending.length < fuel) :
    drainFrames fuel client = .ok (client.drain frameStep) := by
  induction fuel generalizing client with
  | zero => cases h
  | succ fuel ih =>
    unfold drainFrames
    rcases decodeNext_cases client.pending with hc | ⟨code, offset, reason, hc⟩ |
      ⟨e, n, hc, hpos, hle⟩
    · rw [hc, Client.drain_wait (frameStep_wait hc)]
      rfl
    · rw [hc, Client.drain_stop (frameStep_stop hc)]
      rfl
    · rw [hc, frameStep_stable.drain_item (frameStep_item hc), ← ih]
      · rfl
      · show (client.pending.drop n).length < fuel
        rw [List.length_drop]
        omega

theorem receiveChunk_ok (client : ItchClient) (chunk : List Byte) :
    receiveChunk client chunk = .ok (client.receive frameStep chunk) := by
  unfold receiveChunk Client.receive
  split_ifs
  · rfl
  · exact drainFrames_ok _ _ (Nat.lt_succ_self _)

theorem receiveChunks_ok (chunks : List (List Byte)) :
    receiveChunks chunks = .ok (Client.new.receiveAll frameStep chunks) := by
  unfold receiveChunks Client.receiveAll
  generalize (Client.new : ItchClient) = client
  induction chunks generalizing client with
  | nil => rfl
  | cons chunk chunks ih =>
    rw [List.foldlM_cons, receiveChunk_ok, List.foldl_cons, ← ih]
    rfl

/-- **Decoding does not depend on the chunks.** The client terminates, with the events, the error and
its place, and else the retained bytes of the whole stream; a decision of the decoder is the same for
any more input, and the proper prefixes of a frame wait. -/
theorem receiveChunks_flatten :
    (∀ chunks : List (List Byte), ∃ client client', receiveChunks chunks = .ok client ∧
      receiveChunks [chunks.flatten] = .ok client' ∧ Client.Same client client') ∧
    (∀ input rest result, decodeNext input = .ok result → result.status ≠ .NeedMoreData →
      decodeNext (input ++ rest) = .ok result) ∧
    ∀ input rest e, rest ≠ [] →
      decodeNext (input ++ rest) = .ok (complete e (input ++ rest).length) →
        decodeNext input = .ok needMoreData := by
  refine ⟨fun chunks => ⟨_, _, receiveChunks_ok chunks, receiveChunks_ok _, ?_⟩,
    fun input rest result h hstatus => ?_, fun input rest e hrest h => decodeNext_prefix h hrest⟩
  · exact Client.receiveAll_flatten frameStep_stable chunks (Client.new_drained frameStep_stable)
  · rw [decodeNext_append, h]
    rw [h]
    rintro ⟨⟩
    exact hstatus rfl

end Itch

end Lob
