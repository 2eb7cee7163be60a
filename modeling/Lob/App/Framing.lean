import Lob.App.FrameReader
import Lob.App.Shutdown
import Lob.Itch.Grammar

/-!
# The reader and the decoder agree

Whatever reads come back short, `nextFrame` takes from the file the frame that its first two bytes
announce, or finds the file too short for it. So the producer's loop and the decoder, run on the whole
content, cut it in the same places.
-/

namespace Lob

open Basis Itch

namespace FrameReader

variable {s : FrameReader} {buffer bytes : List Byte}

/-! ## Reads and writes -/

theorem overwrite_ok {offset : ℕ} (h : offset + bytes.length ≤ buffer.length) :
    (overwrite buffer offset bytes).run s =
      .ok (buffer.take offset ++ bytes ++ buffer.drop (offset + bytes.length)) s := by
  unfold overwrite
  rw [if_neg (Nat.not_lt.mpr h)]
  rfl

theorem length_resize (buffer : List Byte) (size : ℕ) : (resize buffer size).length = size := by
  unfold resize
  rw [List.length_append, List.length_take, List.length_replicate]
  omega

/-- The reads from one to another do not fail. -/
def Clear (fails : ℕ → Option String) (first last : ℕ) : Prop :=
  first ≤ last ∧ ∀ n, first ≤ n → n < last → fails n = none

theorem Clear.refl (fails : ℕ → Option String) (n : ℕ) : Clear fails n n :=
  ⟨le_rfl, fun _ hle hlt => absurd hlt (Nat.not_lt.mpr hle)⟩

theorem Clear.trans {fails : ℕ → Option String} {first mid last : ℕ} (h : Clear fails first mid)
    (h' : Clear fails mid last) : Clear fails first last := by
  refine ⟨h.1.trans h'.1, fun n hle hlt => ?_⟩
  by_cases hmid : n < mid
  · exact h.2 n hle hmid
  · exact h'.2 n (Nat.not_lt.mp hmid) hlt

theorem Clear.one {fails : ℕ → Option String} {n : ℕ} (h : fails n = none) : Clear fails n (n + 1) := by
  refine ⟨Nat.le_succ n, fun k hle hlt => ?_⟩
  rw [Nat.le_antisymm (Nat.lt_succ_iff.mp hlt) hle]
  exact h

/-- From `s` on a read fails with `reason` after `count` bytes, the first to fail, and leaves `s'`. -/
structure Fails (s s' : FrameReader) (count : ℕ) (reason : String) : Prop where
  rest : s'.rest = s.rest.drop count
  count_le : count ≤ s.rest.length
  error : s'.error = reason
  read : ∃ k, s'.reads = k + 1 ∧ Clear s.fails s.reads k ∧ s.fails k = some reason

/-- Reads of `n` bytes that do not fail, and then one that does. -/
theorem Fails.after {s s₁ s' : FrameReader} {n count : ℕ} {reason : String}
    (h : Fails s₁ s' count reason) (hrest : s₁.rest = s.rest.drop n) (hle : n ≤ s.rest.length)
    (hfails : s₁.fails = s.fails) (hclear : Clear s.fails s.reads s₁.reads) :
    Fails s s' (n + count) reason := by
  obtain ⟨k, hreads, hk, hread⟩ := h.read
  have hcount := h.count_le
  rw [hrest, List.length_drop] at hcount
  rw [hfails] at hk hread
  refine ⟨?_, by omega, h.error, k, hreads, hclear.trans hk, hread⟩
  rw [h.rest, hrest, List.drop_drop]

/-- No read fails. -/
def Reliable (s : FrameReader) : Prop := ∀ n, s.fails n = none

theorem Reliable.not_fails {s s' : FrameReader} (h : s.Reliable) {count : ℕ} {reason : String} :
    ¬Fails s s' count reason := by
  rintro ⟨_, _, _, k, _, _, hread⟩
  rw [h k] at hread
  cases hread

/-- A read takes at least one byte where there is one, unless it fails. -/
theorem readAtMost_ok (s : FrameReader) (hfails : s.fails s.reads = none) {capacity : ℕ}
    (h : 0 < capacity) :
    ∃ count, count ≤ capacity ∧ count ≤ s.rest.length ∧ (0 < s.rest.length → 0 < count) ∧
      (readAtMost capacity).run s = .ok (some (s.rest.take count))
        { s with rest := s.rest.drop count, reads := s.reads + 1 } := by
  refine ⟨min (min capacity (s.schedule s.reads + 1)) s.rest.length, ?_, ?_, ?_, ?_⟩
  · omega
  · omega
  · omega
  · unfold readAtMost
    rw [run_get_bind]
    simp only [hfails]
    rfl

theorem readAtMost_fails {reason : String} (hfails : s.fails s.reads = some reason) (capacity : ℕ) :
    (readAtMost capacity).run s = .ok none { s with reads := s.reads + 1, error := reason } := by
  unfold readAtMost
  rw [run_get_bind]
  simp only [hfails]
  rfl

theorem fails_now {reason : String} (hfails : s.fails s.reads = some reason) :
    Fails s { s with reads := s.reads + 1, error := reason } 0 reason :=
  ⟨rfl, Nat.zero_le _, rfl, s.reads, rfl, Clear.refl _ _, hfails⟩

/-! ## The loops -/

variable {base size fuel filled : ℕ} {truncated : String}

theorem fill_done (h : size ≤ filled) :
    (fill base size truncated (fuel + 1) buffer filled).run s = .ok (true, buffer) s := by
  unfold fill
  rw [if_neg (Nat.not_lt.mpr h)]
  rfl

theorem fill_fails {reason : String} (h : filled < size) (hfails : s.fails s.reads = some reason) :
    (fill base size truncated (fuel + 1) buffer filled).run s =
      .ok (false, buffer) { s with reads := s.reads + 1, error := reason } := by
  unfold fill
  rw [if_pos h, run_bind_ok (readAtMost_fails hfails _)]
  rfl

theorem fill_end (h : filled < size) (hfails : s.fails s.reads = none) (hrest : s.rest = []) :
    (fill base size truncated (fuel + 1) buffer filled).run s =
      .ok (false, buffer) { s with rest := [], reads := s.reads + 1, error := truncated } := by
  obtain ⟨count, _, _, _, run⟩ := readAtMost_ok s hfails (Nat.sub_pos_of_lt h)
  rw [hrest, List.take_nil, List.drop_nil] at run
  unfold fill
  rw [if_pos h, run_bind_ok run]
  rfl

/-- A turn of the loop puts the next bytes of the file behind those that are there. -/
theorem fill_more (truncated : String) (fuel : ℕ) (h : filled < size) (hfails : s.fails s.reads = none)
    (hrest : s.rest ≠ []) (hlength : buffer.length = base + size) :
    ∃ count, 0 < count ∧ count ≤ size - filled ∧ count ≤ s.rest.length ∧
      (fill base size truncated (fuel + 1) buffer filled).run s =
        (fill base size truncated fuel (buffer.take (base + filled) ++ s.rest.take count ++
          buffer.drop (base + filled + count)) (filled + count)).run
            { s with rest := s.rest.drop count, reads := s.reads + 1 } := by
  obtain ⟨count, hcap, hle, hpos, run⟩ := readAtMost_ok s hfails (Nat.sub_pos_of_lt h)
  have hcount : (s.rest.take count).length = count := by
    rw [List.length_take, Nat.min_eq_left hle]
  have hone := hpos (List.length_pos_of_ne_nil hrest)
  refine ⟨count, hone, hcap, hle, ?_⟩
  conv_lhs => unfold fill
  rw [if_pos h, run_bind_ok run]
  simp only
  rw [if_neg (by omega), run_bind_ok (overwrite_ok (by omega)), hcount]

/-- The buffer keeps its length. -/
theorem length_turn {count : ℕ} (hlength : buffer.length = base + size)
    (hcount : count ≤ size - filled) (h : filled ≤ size) (hbytes : bytes.length = count) :
    (buffer.take (base + filled) ++ bytes ++ buffer.drop (base + filled + count)).length =
      base + size := by
  rw [List.length_append, List.length_append, List.length_take, List.length_drop]
  omega

/-- What the loop returns and leaves. -/
inductive Filled (base size filled : ℕ) (truncated : String) (buffer : List Byte) (s : FrameReader) :
    Bool × List Byte → FrameReader → Prop
  | full {reads : ℕ} : size - filled ≤ s.rest.length → Clear s.fails s.reads reads →
      Filled base size filled truncated buffer s
        (true, buffer.take (base + filled) ++ s.rest.take (size - filled))
        { s with rest := s.rest.drop (size - filled), reads := reads }
  | short {buffer' : List Byte} {reads : ℕ} : s.rest.length < size - filled →
      Clear s.fails s.reads reads → Filled base size filled truncated buffer s
        (false, buffer') { s with rest := [], reads := reads, error := truncated }
  | failed {buffer' : List Byte} {s' : FrameReader} {count : ℕ} {reason : String} :
      Fails s s' count reason → filled + count < size →
        Filled base size filled truncated buffer s (false, buffer') s'

/-- What is left to do after a turn of the loop. -/
theorem Filled.turn {count : ℕ} {result : Bool × List Byte} {s' : FrameReader}
    (hfails : s.fails s.reads = none) (hlength : buffer.length = base + size)
    (hcap : count ≤ size - filled) (hmore : filled < size) (hle : count ≤ s.rest.length)
    (h : Filled base size (filled + count) truncated
      (buffer.take (base + filled) ++ s.rest.take count ++
      buffer.drop (base + filled + count)) { s with rest := s.rest.drop count, reads := s.reads + 1 }
        result s') : Filled base size filled truncated buffer s result s' := by
  have hcount : (s.rest.take count).length = count := by
    rw [List.length_take, Nat.min_eq_left hle]
  have hsize : size - filled = count + (size - (filled + count)) := by omega
  cases h with
  | full hroom hclear =>
    -- what is there after the turn, and then the rest of the file
    have hthere : (buffer.take (base + filled) ++ s.rest.take count ++
        buffer.drop (base + filled + count)).take (base + (filled + count)) =
          buffer.take (base + filled) ++ s.rest.take count := by
      apply List.take_left'
      rw [List.length_append, List.length_take, hcount]
      omega
    rw [List.length_drop] at hroom
    rw [hthere, List.drop_drop, List.append_assoc, ← List.take_add, ← hsize]
    exact .full (by omega) ((Clear.one hfails).trans hclear)
  | short hshort hclear =>
    rw [List.length_drop] at hshort
    exact .short (by omega) ((Clear.one hfails).trans hclear)
  | failed hf hlt =>
    exact .failed (hf.after rfl hle rfl (Clear.one hfails)) (by omega)

/-- **Reads until the buffer is full**, or the file has no more bytes, or a read fails. The induction is
on the fuel: a turn of the loop leaves less to read. -/
theorem fill_ok (truncated : String) (filled : ℕ) (hfuel : size - filled < fuel)
    (hfilled : filled ≤ size) (hlength : buffer.length = base + size) :
    ∃ result s', (fill base size truncated fuel buffer filled).run s = .ok result s' ∧
      Filled base size filled truncated buffer s result s' := by
  induction fuel generalizing s buffer filled with
  | zero => exact absurd hfuel (Nat.not_lt_zero _)
  | succ fuel ih =>
    by_cases hmore : filled < size
    · cases hfails : s.fails s.reads with
      | some reason =>
        exact ⟨_, _, fill_fails hmore hfails, .failed (fails_now hfails) (by omega)⟩
      | none =>
        by_cases hrest : s.rest = []
        · refine ⟨_, _, fill_end hmore hfails hrest, .short ?_ (Clear.one hfails)⟩
          rw [hrest]
          exact Nat.sub_pos_of_lt hmore
        · obtain ⟨count, hpos, hcap, hle, run⟩ := fill_more truncated fuel hmore hfails hrest hlength
          have hcount : (s.rest.take count).length = count := by
            rw [List.length_take, Nat.min_eq_left hle]
          obtain ⟨result, s', run', h⟩ := ih (filled + count)
            (s := { s with rest := s.rest.drop count, reads := s.reads + 1 }) (by omega) (by omega)
            (length_turn hlength hcap hfilled hcount)
          exact ⟨result, s', run.trans run', h.turn hfails hlength hcap hmore hle⟩
    · have hzero : size - filled = 0 := by omega
      refine ⟨_, _, fill_done (Nat.not_lt.mp hmore), ?_⟩
      have hfull : Filled base size filled truncated buffer s _ _ :=
        .full (by rw [hzero]; exact Nat.zero_le _) (Clear.refl s.fails s.reads)
      rwa [hzero, List.take_zero, List.append_nil, List.drop_zero,
        List.take_of_length_le (by omega)] at hfull

/-! ## A frame -/

/-- The length that the reader computes is the decoder's. -/
theorem payloadSize_eq (high low : Byte) (rest : List Byte) :
    (high.setWidth 64 <<< 8 ||| low.setWidth 64).toNat = frameLength (high :: low :: rest) := by
  have hwide : high.setWidth 64 <<< 8 ||| low.setWidth 64 = ofBigEndian 64 [high, low] := by
    show _ = (0#64 <<< 8 ||| high.setWidth 64) <<< 8 ||| low.setWidth 64
    rw [BitVec.zero_shiftLeft, BitVec.zero_or]
  show _ = (ofBigEndian 16 [high, low]).toNat
  rw [hwide, toNat_ofBigEndian (Nat.le_add_left 16 48), toNat_ofBigEndian (Nat.le_refl 16)]

/-- The bytes of the file end before a frame does. -/
def Truncated (bytes : List Byte) : Prop :=
  bytes ≠ [] ∧ (bytes.length < 2 ∨ bytes.length < 2 + frameLength bytes)

/-- The `error` for such bytes. -/
def truncation (bytes : List Byte) : String :=
  if bytes.length < 2 then "truncated ITCH frame-length prefix" else "truncated ITCH frame payload"

theorem frame_there (hne : bytes ≠ []) (h : ¬Truncated bytes) :
    2 ≤ bytes.length ∧ 2 + frameLength bytes ≤ bytes.length := by
  unfold Truncated at h
  rw [not_and] at h
  have := h hne
  omega

theorem frameLength_take {n : ℕ} (h : 2 ≤ bytes.length) (hn : 2 ≤ n) :
    frameLength (bytes.take n) = frameLength bytes := by
  conv_rhs => rw [← List.take_append_drop n bytes]
  rw [frameLength_append]
  rw [List.length_take]
  exact Nat.le_min.mpr ⟨hn, h⟩

/-- What `next_frame` returns and leaves: the vector has the bytes of the frame and no others. -/
inductive Taken (s : FrameReader) : FrameReadStatus → FrameReader → Prop
  | endOfFile : s.rest = [] → Clear s.fails s.reads (s.reads + 1) →
      Taken s .EndOfFile { s with rest := [], reads := s.reads + 1 }
  | frame {reads : ℕ} : 2 + frameLength s.rest ≤ s.rest.length → Clear s.fails s.reads reads →
      Taken s .Frame { s with
        rest := s.rest.drop (2 + frameLength s.rest)
        reads := reads
        frame := s.rest.take (2 + frameLength s.rest) }
  | truncated {s' : FrameReader} : Truncated s.rest → s'.error = truncation s.rest →
      Clear s.fails s.reads s'.reads → Taken s .Error s'
  | failed {s' : FrameReader} {count : ℕ} {reason : String} : Fails s s' count reason →
      s.rest.take count = [] ∨ Truncated (s.rest.take count) → Taken s .Error s'

theorem exists_two (h : 2 ≤ bytes.length) : ∃ high low rest, bytes = high :: low :: rest := by
  match bytes, h with
  | high :: low :: rest, _ => exact ⟨high, low, rest, rfl⟩

/-- The first read of a frame, and the prefix with what it got. -/
theorem firstRead_ok (hfails : s.fails s.reads = none) (h : s.rest ≠ []) :
    ∃ count, 0 < count ∧ count ≤ 2 ∧ (s.rest.take count).length = count ∧
      (readAtMost 2).run s = .ok (some (s.rest.take count))
        { s with rest := s.rest.drop count, reads := s.reads + 1 } ∧
      ∀ s', (overwrite [0, 0] 0 (s.rest.take count)).run s' =
        .ok (s.rest.take count ++ [0, 0].drop count) s' := by
  obtain ⟨count, hcap, hle, hpos, run⟩ := readAtMost_ok s hfails Nat.two_pos
  have hcount : (s.rest.take count).length = count := by
    rw [List.length_take, Nat.min_eq_left hle]
  refine ⟨count, hpos (List.length_pos_of_ne_nil h), hcap, hcount, run, fun s' => ?_⟩
  rw [overwrite_ok (show 0 + _ ≤ [(0 : Byte), 0].length by rw [hcount, Nat.zero_add]; exact hcap),
    hcount, Nat.zero_add]
  rfl

/-- The vector is resized and gets the prefix. -/
theorem header_ok (s : FrameReader) (frame : List Byte) (high low : Byte) (n : ℕ) :
    ∃ frame₁ frame₂, (overwrite (resize frame (2 + n)) 0 [high]).run s = .ok frame₁ s ∧
      (overwrite frame₁ 1 [low]).run s = .ok frame₂ s ∧ frame₂.length = 2 + n ∧
      frame₂.take 2 = [high, low] := by
  obtain ⟨a, b, tail, hr⟩ : ∃ a b tail, resize frame (2 + n) = a :: b :: tail :=
    exists_two (by rw [length_resize]; omega)
  have hlength := length_resize frame (2 + n)
  rw [hr, List.length_cons, List.length_cons] at hlength
  rw [hr]
  refine ⟨high :: b :: tail, high :: low :: tail, overwrite_ok ?_, overwrite_ok ?_, hlength, rfl⟩
  · exact Nat.le_add_left 1 _
  · exact Nat.le_add_left 2 _

/-- The payload behind a prefix that has been read. -/
def payload (size : ℕ) (frame : List Byte) : Reader FrameReadStatus := do
  let (full, frame) ← fill 2 size "truncated ITCH frame payload" (size + 1) frame 0
  modify fun s => { s with frame := frame }
  if !full then
    return FrameReadStatus.Error
  return FrameReadStatus.Frame

theorem payload_ok {frame : List Byte} {reads : ℕ} (h : 2 ≤ s.rest.length)
    (hlength : frame.length = 2 + frameLength s.rest) (htake : frame.take 2 = s.rest.take 2)
    (hclear : Clear s.fails s.reads reads) :
    ∃ status s', (payload (frameLength s.rest) frame).run
      { s with rest := s.rest.drop 2, reads := reads } = .ok status s' ∧ Taken s status s' := by
  obtain ⟨⟨full, frame'⟩, s', run, hfilled⟩ :=
    fill_ok (s := { s with rest := s.rest.drop 2, reads := reads }) "truncated ITCH frame payload" 0
      (show frameLength s.rest - 0 < frameLength s.rest + 1 by omega) (Nat.zero_le _) hlength
  unfold payload
  rw [run_bind_ok run]
  cases hfilled with
  | full hroom hclear' =>
    rw [Nat.sub_zero, List.length_drop] at hroom
    rw [Nat.sub_zero, Nat.add_zero, htake, ← List.take_add, List.drop_drop]
    exact ⟨_, _, rfl, .frame (by omega) (hclear.trans hclear')⟩
  | short hshort hclear' =>
    rw [Nat.sub_zero, List.length_drop] at hshort
    refine ⟨_, _, rfl, .truncated ⟨List.ne_nil_of_length_pos (by omega), Or.inr (by omega)⟩ ?_
      (hclear.trans hclear')⟩
    unfold truncation
    rw [if_neg (Nat.not_lt.mpr h)]
  | @failed _ _ count reason hf hlt =>
    obtain ⟨hrest, hle, herror, hread⟩ := hf.after (s := s) rfl h rfl hclear
    refine ⟨_, _, rfl, .failed ⟨hrest, hle, herror, hread⟩ (Or.inr ?_)⟩
    have hlen : (s.rest.take (2 + count)).length = 2 + count := by
      rw [List.length_take, Nat.min_eq_left hle]
    refine ⟨List.ne_nil_of_length_pos (by omega), Or.inr ?_⟩
    rw [hlen, frameLength_take h (Nat.le_add_right 2 count)]
    omega

/-- All that is behind the loop of the prefix. -/
def header (full : Bool) (lengthPrefix : List Byte) : Reader FrameReadStatus := do
  if !full then
    return .Error
  let high ← observe fun _ => deref lengthPrefix[0]?
  let low ← observe fun _ => deref lengthPrefix[1]?
  let payloadSize := (high.setWidth 64 <<< 8 ||| low.setWidth 64).toNat
  let frame := resize (← get).frame (2 + payloadSize)
  let frame ← overwrite frame 0 [high]
  let frame ← overwrite frame 1 [low]
  payload payloadSize frame

theorem header_taken {reads : ℕ} (h : 2 ≤ s.rest.length) (hclear : Clear s.fails s.reads reads) :
    ∃ status s', (header true (s.rest.take 2)).run { s with rest := s.rest.drop 2, reads := reads } =
      .ok status s' ∧ Taken s status s' := by
  obtain ⟨high, low, rest, hrest⟩ := exists_two h
  have htwo : s.rest.take 2 = [high, low] := by rw [hrest]; rfl
  obtain ⟨frame₁, frame₂, run₁, run₂, hlength, htake⟩ :=
    header_ok { s with rest := s.rest.drop 2, reads := reads } s.frame high low (frameLength s.rest)
  have hhigh : ∀ s', (observe fun _ => deref [high, low][0]? : Reader Byte).run s' = .ok high s' :=
    fun _ => rfl
  have hlow : ∀ s', (observe fun _ => deref [high, low][1]? : Reader Byte).run s' = .ok low s' :=
    fun _ => rfl
  unfold header
  simp only [htwo, Bool.not_true]
  rw [if_neg Bool.false_ne_true, run_bind_ok (hhigh _), run_bind_ok (hlow _),
    payloadSize_eq high low rest, ← hrest, run_get_bind, run_bind_ok run₁, run_bind_ok run₂]
  exact payload_ok h hlength (htake.trans htwo.symm) hclear

/-- Behind the first bytes of the prefix. -/
theorem prefix_taken {count : ℕ} (hfails : s.fails s.reads = none) (hpos : 0 < count) (hcap : count ≤ 2)
    (hcount : (s.rest.take count).length = count) : ∃ status s',
      (fill 0 2 "truncated ITCH frame-length prefix" 2 (s.rest.take count ++ [0, 0].drop count)
          count >>=
        fun filled => header filled.1 filled.2).run
          { s with rest := s.rest.drop count, reads := s.reads + 1 } = .ok status s' ∧
            Taken s status s' := by
  have hle : count ≤ s.rest.length := by
    rw [← hcount]
    exact List.length_take_le' _ _
  have hsize : count + (2 - count) = 2 := by omega
  have hlength : (s.rest.take count ++ [(0 : Byte), 0].drop count).length = 0 + 2 := by
    rw [List.length_append, List.length_drop, hcount, show [(0 : Byte), 0].length = 2 from rfl]
    omega
  obtain ⟨⟨full, buffer⟩, s₁, run, hfilled⟩ :=
    fill_ok (s := { s with rest := s.rest.drop count, reads := s.reads + 1 })
      "truncated ITCH frame-length prefix" count (show 2 - count < 2 by omega) hcap hlength
  rw [run_bind_ok run]
  cases hfilled with
  | full hroom hclear =>
    rw [List.length_drop] at hroom
    rw [Nat.zero_add, List.take_left' hcount, List.drop_drop, ← List.take_add, hsize]
    exact header_taken (by omega) ((Clear.one hfails).trans hclear)
  | short hshort hclear =>
    rw [List.length_drop] at hshort
    refine ⟨_, _, rfl, .truncated ⟨List.ne_nil_of_length_pos (by omega), Or.inl (by omega)⟩ ?_
      ((Clear.one hfails).trans hclear)⟩
    unfold truncation
    rw [if_pos (by omega)]
  | @failed _ _ count' reason hf hlt =>
    have hafter := hf.after (s := s) rfl hle rfl (Clear.one hfails)
    have htake : (s.rest.take (count + count')).length = count + count' := by
      rw [List.length_take, Nat.min_eq_left hafter.count_le]
    exact ⟨_, _, rfl, .failed hafter
      (Or.inr ⟨List.ne_nil_of_length_pos (by omega), Or.inl (by omega)⟩)⟩

/-- **A frame is taken** where the bytes of the file hold one, unless a read fails at its start or
inside it. -/
theorem nextFrame_ok (s : FrameReader) :
    ∃ status s', nextFrame.run s = .ok status s' ∧ Taken s status s' := by
  unfold nextFrame
  cases hfails : s.fails s.reads with
  | some reason =>
    rw [run_bind_ok (readAtMost_fails hfails 2)]
    exact ⟨_, _, rfl, .failed (fails_now hfails) (Or.inl rfl)⟩
  | none =>
    by_cases hne : s.rest = []
    · obtain ⟨count, _, _, _, run⟩ := readAtMost_ok s hfails Nat.two_pos
      rw [hne, List.take_nil, List.drop_nil] at run
      rw [run_bind_ok run]
      exact ⟨_, _, rfl, .endOfFile hne (Clear.one hfails)⟩
    · obtain ⟨count, hpos, hcap, hcount, run, hwrite⟩ := firstRead_ok hfails hne
      rw [run_bind_ok run]
      simp only
      rw [if_neg (by omega), run_bind_ok (hwrite _), hcount]
      exact prefix_taken hfails hpos hcap hcount

/-! Where no read fails: -/

theorem nextFrame_end (hs : s.Reliable) (h : s.rest = []) :
    nextFrame.run s = .ok .EndOfFile { s with rest := [], reads := s.reads + 1 } := by
  obtain ⟨status, s', run, htaken⟩ := nextFrame_ok s
  cases htaken with
  | endOfFile _ _ => exact run
  | frame hroom _ =>
    rw [h, List.length_nil] at hroom
    omega
  | truncated htruncated _ _ => exact absurd h htruncated.1
  | failed hf _ => exact absurd hf hs.not_fails

theorem nextFrame_frame (hs : s.Reliable) (hne : s.rest ≠ []) (h : ¬Truncated s.rest) :
    ∃ reads, nextFrame.run s = .ok .Frame { s with
      rest := s.rest.drop (2 + frameLength s.rest)
      reads := reads
      frame := s.rest.take (2 + frameLength s.rest) } := by
  obtain ⟨status, s', run, htaken⟩ := nextFrame_ok s
  cases htaken with
  | endOfFile hnil _ => exact absurd hnil hne
  | @frame reads _ _ => exact ⟨reads, run⟩
  | truncated htruncated _ _ => exact absurd htruncated h
  | failed hf _ => exact absurd hf hs.not_fails

/-- A file that ends inside a frame is an error. -/
theorem nextFrame_error (hs : s.Reliable) (h : Truncated s.rest) :
    ∃ s', nextFrame.run s = .ok .Error s' ∧ s'.error = truncation s.rest := by
  obtain ⟨status, s', run, htaken⟩ := nextFrame_ok s
  cases htaken with
  | endOfFile hnil _ => exact absurd hnil h.1
  | frame hroom _ =>
    obtain ⟨_, hshort⟩ := h
    omega
  | truncated _ herror _ => exact ⟨s', run, herror⟩
  | failed hf _ => exact absurd hf hs.not_fails

/-! ## The decoder on a frame -/

theorem truncated_iff {input : List Byte} :
    Truncated input ↔ input ≠ [] ∧ decodeNext input = .ok needMoreData := by
  unfold Truncated
  rw [decodeNext_waits_iff]
  unfold Waits
  exact and_congr_right fun _ => by omega

/-- The decoder decides on a frame, and as it does on all that is left of the file. -/
theorem decodeNext_take {input : List Byte} (hroom : 2 + frameLength input ≤ input.length) :
    decodeNext (input.take (2 + frameLength input)) ≠ .ok needMoreData ∧
      decodeNext (input.take (2 + frameLength input)) = decodeNext input := by
  have hlen : (input.take (2 + frameLength input)).length = 2 + frameLength input := by
    rw [List.length_take]
    omega
  have hsplit := List.take_append_drop (2 + frameLength input) input
  have hframe : frameLength (input.take (2 + frameLength input)) = frameLength input :=
    frameLength_take (by omega) (Nat.le_add_right 2 _)
  have hdecides : decodeNext (input.take (2 + frameLength input)) ≠ .ok needMoreData := by
    rw [ne_eq, decodeNext_waits_iff]
    unfold Waits
    omega
  refine ⟨hdecides, ?_⟩
  conv_rhs => rw [← hsplit]
  rw [decodeNext_append hdecides]

/-- The decoder takes the frame that the reader takes. -/
theorem complete_count {input : List Byte} {event : ItchEvent} {n : ℕ}
    (h : decodeNext input = .ok (complete event n)) : n = 2 + frameLength input := by
  obtain ⟨result, hresult, hg⟩ := exists_grammatical input
  rw [h] at hresult
  cases hresult
  exact (hg.message _ rfl).1

theorem decodeFrame_complete {frame : List Byte} {event : ItchEvent} {n : ℕ}
    (h : decodeNext frame = .ok (complete event n)) : decodeFrame frame = .ok (.ok event) := by
  unfold decodeFrame
  rw [h]
  rfl

theorem decodeFrame_error {frame : List Byte} {code : DecodeErrorCode} {offset : ℕ} {reason : String}
    (h : decodeNext frame = .ok (Itch.error code offset reason)) :
    decodeFrame frame = .ok (.error reason) := by
  unfold decodeFrame
  rw [h]
  rfl

/-! ## The whole file -/

/-- The content is frames that decode, and nothing else. -/
def Framed (content : List Byte) : Prop :=
  ∃ frames : List (List Byte), content = frames.flatten ∧
    ∀ frame ∈ frames, ∃ event, decodeNext frame = .ok (complete event frame.length)

theorem framed_nil : Framed [] := ⟨[], rfl, nofun⟩

/-- A framed content starts with a frame that decodes, or is empty. -/
theorem Framed.front {content : List Byte} (h : Framed content) : content = [] ∨
    ∃ event n, decodeNext content = .ok (complete event n) ∧ Framed (content.drop n) := by
  obtain ⟨frames, hcontent, hframes⟩ := h
  cases frames with
  | nil => exact Or.inl hcontent
  | cons frame frames =>
    obtain ⟨event, hevent⟩ := hframes frame List.mem_cons_self
    rw [List.flatten_cons] at hcontent
    refine Or.inr ⟨event, frame.length, ?_, frames, ?_, fun f hf =>
      hframes f (List.mem_cons_of_mem _ hf)⟩
    · rw [hcontent, decodeNext_append, hevent]
      rw [hevent]
      exact fun h => needMoreData_ne_complete (Except.ok.inj h).symm
    · rw [hcontent, List.drop_left]

theorem framed_iff {content : List Byte} {event : ItchEvent} {n : ℕ}
    (h : decodeNext content = .ok (complete event n)) (htake : decodeNext (content.take n) =
      .ok (complete event n)) (hle : n ≤ content.length) :
    Framed content ↔ Framed (content.drop n) := by
  have hlen : (content.take n).length = n := by
    rw [List.length_take, Nat.min_eq_left hle]
  constructor
  · intro hf
    rcases hf.front with hnil | ⟨event', n', h', hrest⟩
    · rw [hnil, List.drop_nil]
      exact framed_nil
    · rw [h] at h'
      rw [(complete_inj (Except.ok.inj h')).2]
      exact hrest
  · rintro ⟨frames, hcontent, hframes⟩
    refine ⟨content.take n :: frames, ?_, fun frame hframe => ?_⟩
    · rw [List.flatten_cons, ← hcontent, List.take_append_drop]
    · rcases List.mem_cons.mp hframe with rfl | hframe
      · exact ⟨event, by rw [htake, hlen]⟩
      · exact hframes frame hframe

theorem not_framed {content : List Byte} (hne : content ≠ [])
    (h : ∀ event n, decodeNext content ≠ .ok (complete event n)) : ¬Framed content := by
  intro hf
  rcases hf.front with hnil | ⟨event, n, h', _⟩
  · exact hne hnil
  · exact h event n h'

/-- How repeated decoding stopped: the last result, and what it was made of. The loop of the producer
failed if that was an error or not a frame. -/
def Stopped (client : ItchClient) (failed : Bool) : Prop :=
  ∃ result, decodeNext client.pending = .ok result ∧ result.status ≠ .Complete ∧
    (failed = true ↔ result.status = .Error ∨
      result.status = .NeedMoreData ∧ client.pending ≠ [])

theorem decodeFrame_run {decoded : Except String ItchEvent} (h : decodeFrame s.frame = .ok decoded) :
    (observe fun s : FrameReader => decodeFrame s.frame).run s = .ok decoded s :=
  observe_ok (f := fun s : FrameReader => decodeFrame s.frame) h

/-- The loop of the producer obtains what repeated decoding takes off the front of what is left. -/
def ProducesAlike (fuel : ℕ) (s : FrameReader) (client : ItchClient) : Prop :=
  ∃ events failed s', (produce fuel).run s = .ok (events, failed) s' ∧
    (client.drain frameStep).items = client.items ++ events ∧
    Stopped (client.drain frameStep) failed ∧ (failed = false ↔ Framed s.rest)

theorem produce_end {client : ItchClient} (fuel : ℕ) (hs : s.Reliable)
    (hpending : client.pending = s.rest)
    (hnil : s.rest = []) : ProducesAlike (fuel + 1) s client := by
  have hwait : decodeNext client.pending = .ok needMoreData := by
    rw [hpending, hnil]
    exact decodeNext_short Nat.two_pos
  unfold ProducesAlike
  rw [Client.drain_wait (frameStep_wait hwait)]
  refine ⟨[], false, { s with rest := [], reads := s.reads + 1 }, ?_, (List.append_nil _).symm,
    ⟨needMoreData, hwait, nofun, ?_⟩, ?_⟩
  · unfold produce
    rw [run_bind_ok (nextFrame_end hs hnil)]
    rfl
  · rw [hpending]
    exact iff_of_false nofun fun h => h.elim nofun fun h => h.2 hnil
  · rw [hnil]
    exact iff_of_true rfl framed_nil

theorem produce_truncated {client : ItchClient} (fuel : ℕ) (hs : s.Reliable)
    (hpending : client.pending = s.rest)
    (hnil : s.rest ≠ []) (htruncated : Truncated s.rest) : ProducesAlike (fuel + 1) s client := by
  have hwait : decodeNext client.pending = .ok needMoreData := by
    rw [hpending]
    exact (truncated_iff.mp htruncated).2
  obtain ⟨s', run, _⟩ := nextFrame_error hs htruncated
  unfold ProducesAlike
  rw [Client.drain_wait (frameStep_wait hwait)]
  refine ⟨[], true, s', ?_, (List.append_nil _).symm, ⟨needMoreData, hwait, nofun, ?_⟩, ?_⟩
  · unfold produce
    rw [run_bind_ok run]
    rfl
  · rw [hpending]
    exact iff_of_true rfl (Or.inr ⟨rfl, hnil⟩)
  · refine iff_of_false nofun (not_framed hnil fun event n h => ?_)
    rw [← hpending, hwait] at h
    exact needMoreData_ne_complete (Except.ok.inj h)

/-- A bad frame ends the loop. -/
theorem produce_bad {client : ItchClient} (fuel : ℕ) (hs : s.Reliable)
    (hpending : client.pending = s.rest)
    (hnil : s.rest ≠ []) (htruncated : ¬Truncated s.rest) {code : DecodeErrorCode} {offset : ℕ}
    {reason : String} (hc : decodeNext s.rest = .ok (Itch.error code offset reason)) :
    ProducesAlike (fuel + 1) s client := by
  obtain ⟨_, hroom⟩ := frame_there hnil htruncated
  obtain ⟨reads, run⟩ := nextFrame_frame hs hnil htruncated
  obtain ⟨_, hsame⟩ := decodeNext_take hroom
  have hstop : decodeNext client.pending = .ok (Itch.error code offset reason) := by
    rw [hpending, hc]
  unfold ProducesAlike
  rw [Client.drain_stop (frameStep_stop hstop)]
  refine ⟨[], true, { s with
    rest := s.rest.drop (2 + frameLength s.rest)
    reads := reads
    frame := s.rest.take (2 + frameLength s.rest)
    error := reason }, ?_, (List.append_nil _).symm, ⟨_, hstop, nofun, ?_⟩, ?_⟩
  · unfold produce
    rw [run_bind_ok run]
    show ((observe fun s : FrameReader => decodeFrame s.frame) >>= _).run _ = _
    rw [run_bind_ok (decodeFrame_run (decodeFrame_error (hsame.trans hc)))]
    rfl
  · exact iff_of_true rfl (Or.inl rfl)
  · refine iff_of_false nofun (not_framed hnil fun event n h => ?_)
    rw [hc] at h
    exact error_ne_complete (Except.ok.inj h)

/-- After a frame that decodes the loop goes on with the rest. -/
theorem produce_event {client : ItchClient} {fuel : ℕ} (hs : s.Reliable)
    (hpending : client.pending = s.rest)
    (hnil : s.rest ≠ []) (htruncated : ¬Truncated s.rest) {event : ItchEvent} {n : ℕ}
    (hc : decodeNext s.rest = .ok (complete event n))
    (hrest : ∀ s' : FrameReader, s'.Reliable → s'.rest = s.rest.drop n →
      ProducesAlike fuel s' (client.advance event n)) :
    ProducesAlike (fuel + 1) s client := by
  obtain ⟨_, hroom⟩ := frame_there hnil htruncated
  obtain ⟨reads, run⟩ := nextFrame_frame hs hnil htruncated
  obtain ⟨_, hsame⟩ := decodeNext_take hroom
  obtain rfl := complete_count hc
  have hitem : decodeNext client.pending = .ok (complete event (2 + frameLength s.rest)) := by
    rw [hpending, hc]
  unfold ProducesAlike
  rw [frameStep_stable.drain_item (frameStep_item hitem), framed_iff hc (hsame.trans hc) hroom]
  obtain ⟨events, failed, s', run', hitems, hstopped, hframed⟩ := hrest
    { s with
      rest := s.rest.drop (2 + frameLength s.rest)
      reads := reads
      frame := s.rest.take (2 + frameLength s.rest) } hs rfl
  refine ⟨event :: events, failed, s', ?_, ?_, hstopped, hframed⟩
  · unfold produce
    rw [run_bind_ok run]
    show ((observe fun s : FrameReader => decodeFrame s.frame) >>= _).run _ = _
    rw [run_bind_ok (decodeFrame_run (decodeFrame_complete (hsame.trans hc)))]
    show (produce fuel >>= _).run _ = _
    rw [run_bind_ok run']
    rfl
  · rw [hitems]
    exact List.append_assoc _ _ _

/-- **The loop of the producer**, by induction on its fuel. -/
theorem produce_ok (fuel : ℕ) (s : FrameReader) (client : ItchClient) (hs : s.Reliable)
    (hfuel : s.rest.length < fuel) (hpending : client.pending = s.rest) :
    ProducesAlike fuel s client := by
  induction fuel generalizing s client with
  | zero => exact absurd hfuel (Nat.not_lt_zero _)
  | succ fuel ih =>
    by_cases hnil : s.rest = []
    · exact produce_end fuel hs hpending hnil
    by_cases htruncated : Truncated s.rest
    · exact produce_truncated fuel hs hpending hnil htruncated
    obtain ⟨_, hroom⟩ := frame_there hnil htruncated
    rcases decodeNext_cases s.rest with hc | ⟨code, offset, reason, hc⟩ | ⟨event, n, hc, hpos, hle⟩
    · -- the frame is there
      obtain ⟨hdecides, hsame⟩ := decodeNext_take hroom
      rw [hsame] at hdecides
      exact absurd hc hdecides
    · exact produce_bad fuel hs hpending hnil htruncated hc
    · refine produce_event hs hpending hnil htruncated hc fun s' hreliable hs' =>
        ih s' _ hreliable ?_ ?_
      · rw [hs', List.length_drop]
        omega
      · unfold Client.advance
        rw [hs', hpending]

/-- **The reader and the decoder agree.** For every content and every way that its reads come back
short, the loop of the producer obtains the events of repeated decoding, and fails exactly where that
stops with an error or inside a frame; it succeeds exactly on frames that decode. The vector that it
reuses holds the frame that was read and nothing else, on which the decoder does not wait. -/
theorem produce_agrees :
    (∀ (content : List Byte) (schedule : ℕ → ℕ) (reads : ℕ) (frame : List Byte) (error : String),
      ∃ events failed s' client,
        (produce (content.length + 1)).run
            ⟨content, schedule, fun _ => none, reads, frame, error⟩ = .ok (events, failed) s' ∧
        drainFrames (content.length + 1) (Client.new.append content) = .ok client ∧
        events = client.items ∧ Stopped client failed ∧ (failed = false ↔ Framed content)) ∧
    ∀ s s', nextFrame.run s = .ok .Frame s' → s.rest = s'.frame ++ s'.rest ∧
      decodeNext s'.frame = decodeNext s.rest ∧ decodeNext s'.frame ≠ .ok needMoreData := by
  refine ⟨fun content schedule reads frame error => ?_, fun s s' h => ?_⟩
  · obtain ⟨events, failed, s', run, hitems, hstopped, hframed⟩ := produce_ok (content.length + 1)
      ⟨content, schedule, fun _ => none, reads, frame, error⟩ (Client.new.append content)
      (fun _ => rfl) (Nat.lt_succ_self _) rfl
    exact ⟨events, failed, s', _, run, drainFrames_ok _ _ (Nat.lt_succ_self _), hitems.symm, hstopped,
      hframed⟩
  · obtain ⟨status, s₁, run, htaken⟩ := nextFrame_ok s
    rw [h] at run
    cases run
    cases htaken with
    | frame hroom _ =>
      obtain ⟨hdecides, hsame⟩ := decodeNext_take hroom
      exact ⟨(List.take_append_drop _ _).symm, hsame, hdecides⟩

end FrameReader

end Lob
