import Lob.App.Framing
import Lob.App.Outcome

/-!
# From the file to the outcome

The frames of a file depend on its bytes only, not on the reads that come back short, but for those
behind a read that fails. So the program prints and returns what the program without threads does on
these frames, and on a file of encoded events that are these events.
-/

namespace Lob

open Basis Itch

namespace FrameReader

/-! ## The frames of a file -/

/-- The frames of a content, and the error where it ends inside one. -/
def framesOf (content : List Byte) : List FrameRead :=
  if content = [] then []
  else if content.length < 2 then [.error "truncated ITCH frame-length prefix"]
  else if content.length < 2 + frameLength content then [.error "truncated ITCH frame payload"]
  else .frame (content.take (2 + frameLength content)) ::
    framesOf (content.drop (2 + frameLength content))
termination_by content.length
decreasing_by
  rw [List.length_drop]
  omega

/-- The frames that are whole in a content. -/
def wholeFrames (content : List Byte) : List FrameRead :=
  (framesOf content).filter fun
    | .frame _ => true
    | .error _ => false

variable {s : FrameReader}

theorem framesOf_nil : framesOf [] = [] := by
  unfold framesOf
  rw [if_pos rfl]

theorem framesOf_truncated {content : List Byte} (h : Truncated content) :
    framesOf content = [.error (truncation content)] := by
  obtain ⟨hne, hshort⟩ := h
  unfold framesOf truncation
  rw [if_neg hne]
  by_cases hprefix : content.length < 2
  · rw [if_pos hprefix, if_pos hprefix]
  · rw [if_neg hprefix, if_neg hprefix, if_pos (hshort.resolve_left hprefix)]

theorem framesOf_frame {content : List Byte} (hne : content ≠ []) (h : ¬Truncated content) :
    framesOf content = .frame (content.take (2 + frameLength content)) ::
      framesOf (content.drop (2 + frameLength content)) := by
  obtain ⟨htwo, hroom⟩ := frame_there hne h
  conv_lhs => unfold framesOf
  rw [if_neg hne, if_neg (Nat.not_lt.mpr htwo), if_neg (Nat.not_lt.mpr hroom)]

theorem wholeFrames_ended {content : List Byte} (h : content = [] ∨ Truncated content) :
    wholeFrames content = [] := by
  unfold wholeFrames
  rcases h with rfl | h
  · rw [framesOf_nil]
    rfl
  · rw [framesOf_truncated h]
    rfl

/-- The first frame of a content, and the bytes up to a failure behind it. -/
theorem wholeFrames_frame {content : List Byte} (hroom : 2 + frameLength content ≤ content.length)
    (count : ℕ) : wholeFrames (content.take (2 + frameLength content + count)) =
      .frame (content.take (2 + frameLength content)) ::
        wholeFrames ((content.drop (2 + frameLength content)).take count) := by
  have hlength : 2 + frameLength content ≤
      (content.take (2 + frameLength content + count)).length := by
    rw [List.length_take]
    omega
  have hframe : frameLength (content.take (2 + frameLength content + count)) = frameLength content :=
    frameLength_take (by omega) (by omega)
  have htruncated : ¬Truncated (content.take (2 + frameLength content + count)) := by
    rintro ⟨_, hshort⟩
    rw [hframe] at hshort
    omega
  unfold wholeFrames
  rw [framesOf_frame (List.ne_nil_of_length_pos (by omega)) htruncated, hframe, List.take_take,
    Nat.min_eq_left (Nat.le_add_right _ _), List.drop_take, Nat.add_sub_cancel_left]
  rfl

/-- What is read from `s` to `s'`: the frames of the content, or those that are whole before the first
read that fails, and its message. -/
def Gives (s s' : FrameReader) (source : List FrameRead) : Prop :=
  (Clear s.fails s.reads s'.reads ∧ source = framesOf s.rest) ∨
    ∃ count reason, Fails s s' count reason ∧
      source = wholeFrames (s.rest.take count) ++ [.error reason]

/-- A frame, and then the rest of the file. -/
theorem Gives.frame {s' : FrameReader} {source : List FrameRead} {reads : ℕ}
    (hroom : 2 + frameLength s.rest ≤ s.rest.length) (hclear : Clear s.fails s.reads reads)
    (h : Gives { s with
      rest := s.rest.drop (2 + frameLength s.rest)
      reads := reads
      frame := s.rest.take (2 + frameLength s.rest) } s' source) :
    Gives s s' (.frame (s.rest.take (2 + frameLength s.rest)) :: source) := by
  rcases h with ⟨hclear', rfl⟩ | ⟨count, reason, hf, rfl⟩
  · have hne : s.rest ≠ [] := List.ne_nil_of_length_pos (by omega)
    refine Or.inl ⟨hclear.trans hclear', (framesOf_frame hne ?_).symm⟩
    rintro ⟨_, hshort⟩
    omega
  · refine Or.inr ⟨2 + frameLength s.rest + count, reason, hf.after rfl hroom rfl hclear, ?_⟩
    rw [wholeFrames_frame hroom]
    rfl

/-- **The reads of a file**, by induction on the fuel. -/
theorem readAll_ok (fuel : ℕ) (s : FrameReader) (h : s.rest.length < fuel) :
    ∃ source s', (readAll fuel).run s = .ok source s' ∧ Gives s s' source := by
  induction fuel generalizing s with
  | zero => exact absurd h (Nat.not_lt_zero _)
  | succ fuel ih =>
    obtain ⟨status, s₁, run, htaken⟩ := nextFrame_ok s
    unfold readAll
    rw [run_bind_ok run]
    cases htaken with
    | endOfFile hnil hclear =>
      refine ⟨_, _, rfl, Or.inl ⟨hclear, ?_⟩⟩
      rw [hnil, framesOf_nil]
    | truncated htruncated herror hclear =>
      refine ⟨_, _, rfl, Or.inl ⟨hclear, ?_⟩⟩
      rw [framesOf_truncated htruncated, ← herror]
    | failed hf hended =>
      refine ⟨_, _, rfl, Or.inr ⟨_, _, hf, ?_⟩⟩
      rw [wholeFrames_ended hended, ← hf.error]
      rfl
    | @frame reads hroom hclear =>
      have hless : (s.rest.drop (2 + frameLength s.rest)).length < fuel := by
        rw [List.length_drop]
        omega
      obtain ⟨source, s', run', hgives⟩ := ih { s with
        rest := s.rest.drop (2 + frameLength s.rest)
        reads := reads
        frame := s.rest.take (2 + frameLength s.rest) } hless
      exact ⟨_, s', run_bind_ok run', hgives.frame hroom hclear⟩

theorem readAll_reliable (hs : s.Reliable) (fuel : ℕ) (h : s.rest.length < fuel) :
    ∃ s', (readAll fuel).run s = .ok (framesOf s.rest) s' := by
  obtain ⟨source, s', run, ⟨_, rfl⟩ | ⟨_, _, hf, _⟩⟩ := readAll_ok fuel s h
  · exact ⟨s', run⟩
  · exact absurd hf hs.not_fails

/-! ## The producer without the ring -/

/-- The loop without the ring obtains the events of the frames, and fails as they do. -/
theorem produce_framesOf (fuel : ℕ) (s : FrameReader) (hs : s.Reliable) (h : s.rest.length < fuel) :
    ∃ s', (produce fuel).run s =
      .ok (decodedEvents (framesOf s.rest), endsInError (framesOf s.rest)) s' := by
  induction fuel generalizing s with
  | zero => exact absurd h (Nat.not_lt_zero _)
  | succ fuel ih =>
    unfold produce
    by_cases hnil : s.rest = []
    · rw [hnil, framesOf_nil, run_bind_ok (nextFrame_end hs hnil)]
      exact ⟨_, rfl⟩
    by_cases htruncated : Truncated s.rest
    · obtain ⟨s', run, _⟩ := nextFrame_error hs htruncated
      rw [framesOf_truncated htruncated, run_bind_ok run]
      exact ⟨s', rfl⟩
    obtain ⟨_, hroom⟩ := frame_there hnil htruncated
    obtain ⟨reads, run⟩ := nextFrame_frame hs hnil htruncated
    obtain ⟨decoded, hdecoded⟩ := decodeFrame_total (s.rest.take (2 + frameLength s.rest))
    have hevent := FrameRead.event?_frame hdecoded
    rw [framesOf_frame hnil htruncated, run_bind_ok run]
    show ∃ s', ((observe fun s : FrameReader => decodeFrame s.frame) >>= _).run _ = _
    rw [run_bind_ok (decodeFrame_run hdecoded)]
    cases decoded with
    | error reason =>
      rw [decodedEvents_none hevent, endsInError_none hevent]
      exact ⟨_, rfl⟩
    | ok event =>
      rw [decodedEvents_some hevent, endsInError_some hevent]
      obtain ⟨s', run'⟩ := ih { s with
        rest := s.rest.drop (2 + frameLength s.rest)
        reads := reads
        frame := s.rest.take (2 + frameLength s.rest) } hs (by
          show (s.rest.drop _).length < fuel
          rw [List.length_drop]
          omega)
      exact ⟨s', run_bind_ok run'⟩

/-- The events of the frames are those that the decoder takes off the content. -/
theorem framesOf_agrees (content : List Byte) (client : ItchClient)
    (hpending : client.pending = content) :
    (client.drain frameStep).items = client.items ++ decodedEvents (framesOf content) ∧
      (endsInError (framesOf content) = false ↔ Framed content) := by
  set s : FrameReader := .start ⟨content, fun _ => 0, fun _ => none⟩
  have hs : s.Reliable := fun _ => rfl
  obtain ⟨s₁, run₁⟩ := produce_framesOf (content.length + 1) s hs (Nat.lt_succ_self _)
  obtain ⟨events, failed, s₂, run₂, hitems, _, hframed⟩ :=
    produce_ok (content.length + 1) s client hs (Nat.lt_succ_self _) hpending
  rw [run₁] at run₂
  cases run₂
  exact ⟨hitems, hframed⟩

/-- An error behind the frames adds its message where all of them decode. -/
theorem reads_failed (reads : List FrameRead) (reason : String) :
    decodedEvents (reads ++ [.error reason]) = decodedEvents reads ∧
      endsInError (reads ++ [.error reason]) = true ∧
      errorText (reads ++ [.error reason]) =
        if endsInError reads then errorText reads else reason := by
  induction reads with
  | nil => exact ⟨rfl, rfl, rfl⟩
  | cons read reads ih =>
    obtain ⟨hevents, hends, htext⟩ := ih
    rw [List.cons_append]
    cases hread : read.event? with
    | none =>
      rw [decodedEvents_none hread, decodedEvents_none hread, endsInError_none hread,
        endsInError_none hread, errorText_none hread, errorText_none hread]
      exact ⟨rfl, rfl, rfl⟩
    | some event =>
      rw [decodedEvents_some hread, decodedEvents_some hread, endsInError_some hread,
        endsInError_some hread, errorText_some hread, errorText_some hread, hevents]
      exact ⟨rfl, hends, htext⟩

end FrameReader

/-! ## Encoded events -/

/-- A file of events, one frame after the other; some events have no layout. -/
def encodeAll : List ItchEvent → Option (List Byte)
  | [] => some []
  | event :: events => do return (← encode event) ++ (← encodeAll events)

/-- The event can be told from its bytes. -/
def Encodable (event : ItchEvent) : Prop :=
  (∀ message, event ≠ .skippedMessage message) ∧
    ∀ h, header event = some h → h.timestamp.toNat < 2 ^ 48

variable {event : ItchEvent} {events : List ItchEvent} {content : List Byte}

theorem encodeAll_cons {bytes rest : List Byte} (h : encode event = some bytes)
    (h' : encodeAll events = some rest) : encodeAll (event :: events) = some (bytes ++ rest) := by
  unfold encodeAll
  rw [h, h']
  rfl

theorem of_encodeAll_cons (h : encodeAll (event :: events) = some content) :
    ∃ bytes rest, encode event = some bytes ∧ encodeAll events = some rest ∧
      content = bytes ++ rest := by
  unfold encodeAll at h
  obtain ⟨bytes, hbytes, h⟩ := Option.bind_eq_some_iff.mp h
  obtain ⟨rest, hrest, h⟩ := Option.bind_eq_some_iff.mp h
  exact ⟨bytes, rest, hbytes, hrest, (Option.some.inj h).symm⟩

theorem exists_encodeAll (h : ∀ event ∈ events, Encodable event) :
    ∃ content, encodeAll events = some content := by
  induction events with
  | nil => exact ⟨[], rfl⟩
  | cons event events ih =>
    obtain ⟨bytes, hbytes⟩ := exists_encode (h event List.mem_cons_self).1
    obtain ⟨rest, hrest⟩ := ih fun event' hmem => h event' (List.mem_cons_of_mem _ hmem)
    exact ⟨bytes ++ rest, encodeAll_cons hbytes hrest⟩

/-- The decoder takes the events off their bytes, and nothing is left. -/
theorem drain_encodeAll (h : ∀ event ∈ events, Encodable event)
    (hcontent : encodeAll events = some content) (client : ItchClient)
    (hpending : client.pending = content) : client.drain frameStep =
      ⟨[], client.consumed + content.length, client.items ++ events, client.failure⟩ := by
  induction events generalizing content client with
  | nil =>
    cases hcontent
    have hwait : decodeNext client.pending = .ok needMoreData := by
      rw [hpending]
      exact decodeNext_short Nat.two_pos
    obtain ⟨pending, consumed, items, failure⟩ := client
    cases hpending
    rw [Client.drain_wait (frameStep_wait hwait), List.append_nil]
    rfl
  | cons event events ih =>
    obtain ⟨bytes, rest, hbytes, hrest, rfl⟩ := of_encodeAll_cons hcontent
    have hitem := decodeNext_encode rest hbytes (h event List.mem_cons_self).2
    rw [← hpending] at hitem
    rw [frameStep_stable.drain_item (frameStep_item hitem),
      ih (fun event' hmem => h event' (List.mem_cons_of_mem _ hmem)) hrest _ ?_]
    · unfold Client.advance
      simp only [List.length_append, List.append_assoc, Nat.add_assoc]
      rfl
    · show client.pending.drop bytes.length = rest
      rw [hpending, List.drop_left]

theorem framed_encodeAll (h : ∀ event ∈ events, Encodable event)
    (hcontent : encodeAll events = some content) : FrameReader.Framed content := by
  induction events generalizing content with
  | nil =>
    cases hcontent
    exact FrameReader.framed_nil
  | cons event events ih =>
    obtain ⟨bytes, rest, hbytes, hrest, rfl⟩ := of_encodeAll_cons hcontent
    obtain ⟨frames, rfl, hframes⟩ := ih (fun event' hmem => h event' (List.mem_cons_of_mem _ hmem)) hrest
    have hitem := decodeNext_encode [] hbytes (h event List.mem_cons_self).2
    rw [List.append_nil] at hitem
    refine ⟨bytes :: frames, rfl, fun frame hmem => ?_⟩
    rcases List.mem_cons.mp hmem with rfl | hmem
    · exact ⟨event, hitem⟩
    · exact hframes frame hmem

/-- A content that starts with a frame that decodes. -/
theorem framesOf_event {frame : List Byte} (rest : List Byte)
    (h : decodeNext frame = .ok (complete event frame.length)) :
    FrameReader.framesOf (frame ++ rest) = .frame frame :: FrameReader.framesOf rest ∧
      (FrameRead.frame frame).event? = some event := by
  have hdecides : decodeNext frame ≠ .ok needMoreData := by
    rw [h]
    exact fun hw => needMoreData_ne_complete (Except.ok.inj hw).symm
  have hall : decodeNext (frame ++ rest) = .ok (complete event frame.length) := by
    rw [decodeNext_append hdecides, h]
  have hne : frame ++ rest ≠ [] := by
    intro hnil
    rw [hnil, decodeNext_short (show [].length < 2 from Nat.two_pos)] at hall
    exact needMoreData_ne_complete (Except.ok.inj hall)
  have htruncated : ¬FrameReader.Truncated (frame ++ rest) := by
    rw [FrameReader.truncated_iff, hall]
    exact fun hw => needMoreData_ne_complete (Except.ok.inj hw.2).symm
  refine ⟨?_, FrameRead.event?_frame (FrameReader.decodeFrame_complete h)⟩
  rw [FrameReader.framesOf_frame hne htruncated, ← FrameReader.complete_count hall, List.take_left,
    List.drop_left]

/-- The bytes of a framed content are the encoding of its events. -/
theorem encodeAll_framesOf (h : FrameReader.Framed content)
    (hmodelled : ∀ event ∈ decodedEvents (FrameReader.framesOf content),
      ∀ message, event ≠ .skippedMessage message) :
    encodeAll (decodedEvents (FrameReader.framesOf content)) = some content := by
  obtain ⟨frames, rfl, hframes⟩ := h
  induction frames with
  | nil =>
    rw [List.flatten_nil, FrameReader.framesOf_nil]
    rfl
  | cons frame frames ih =>
    obtain ⟨event, hevent⟩ := hframes frame List.mem_cons_self
    obtain ⟨hsplit, hread⟩ := framesOf_event frames.flatten hevent
    rw [List.flatten_cons, hsplit, decodedEvents_some hread] at hmodelled ⊢
    have hbytes := encode_of_decodeNext hevent (hmodelled event List.mem_cons_self)
    rw [List.take_length] at hbytes
    exact encodeAll_cons hbytes (ih (fun frame' hmem => hframes frame' (List.mem_cons_of_mem _ hmem))
      fun event' hmem => hmodelled event' (List.mem_cons_of_mem _ hmem))

/-- **Whole files round-trip.** A file of encoded events is read back as these events, by the frame
reader whatever reads come back short, and by a client of the decoder however the bytes are cut into
chunks; and a file that is read without an error and holds no skipped message is the encoding of what
is read. -/
theorem file_roundtrip :
    (∀ events : List ItchEvent, (∀ event ∈ events, Encodable event) →
      ∃ content, encodeAll events = some content ∧
        (∀ schedule, ∃ reads s, (FrameReader.readAll (content.length + 1)).run
          (.start ⟨content, schedule, fun _ => none⟩) = .ok reads s ∧
          decodedEvents reads = events ∧ endsInError reads = false) ∧
        ∀ chunks : List (List Byte), chunks.flatten = content →
          ∃ client, receiveChunks chunks = .ok client ∧ client.items = events ∧
            client.pending = [] ∧ client.failure = none ∧ client.consumed = content.length) ∧
    ∀ (file : InputFile) reads s,
      (FrameReader.readAll (file.content.length + 1)).run (.start file) = .ok reads s →
      endsInError reads = false →
      (∀ event ∈ decodedEvents reads, ∀ message, event ≠ .skippedMessage message) →
        encodeAll (decodedEvents reads) = some file.content := by
  refine ⟨fun events h => ?_, fun file reads s run herror hmodelled => ?_⟩
  · obtain ⟨content, hcontent⟩ := exists_encodeAll h
    have hdrain := drain_encodeAll h hcontent (Client.new.append content) rfl
    refine ⟨content, hcontent, fun schedule => ?_, fun chunks hchunks => ?_⟩
    · obtain ⟨s, run⟩ := FrameReader.readAll_reliable
        (s := .start ⟨content, schedule, fun _ => none⟩) (fun _ => rfl) (content.length + 1)
        (Nat.lt_succ_self _)
      obtain ⟨hitems, hframed⟩ :=
        FrameReader.framesOf_agrees content (Client.new.append content) rfl
      rw [hdrain] at hitems
      exact ⟨_, s, run, (List.append_cancel_left hitems).symm,
        hframed.mpr (framed_encodeAll h hcontent)⟩
    · have hsame := Client.receiveAll_flatten frameStep_stable chunks
        (Client.new_drained frameStep_stable)
      rw [hchunks] at hsame
      change Client.Same _ ((Client.new.append content).drain frameStep) at hsame
      rw [hdrain] at hsame
      exact ⟨_, receiveChunks_ok chunks, hsame.items, hsame.pending hsame.failure, hsame.failure,
        hsame.consumed.trans (Nat.zero_add _)⟩
  · obtain ⟨reads', s', run', ⟨_, hreads⟩ | ⟨_, reason, _, hreads⟩⟩ :=
      FrameReader.readAll_ok (file.content.length + 1) (.start file) (Nat.lt_succ_self _)
    · rw [run] at run'
      cases run'
      cases hreads
      have hframed := (FrameReader.framesOf_agrees file.content
        (Client.new.append file.content) rfl).2
      exact encodeAll_framesOf (hframed.mp herror) hmodelled
    · -- a failed read is an error
      rw [run] at run'
      cases run'
      rw [hreads, (FrameReader.reads_failed _ reason).2.1] at herror
      cases herror

/-! ## The program on a file -/

namespace Pipeline

variable {capacity : BitVec 64} {limits : EngineLimits} {source : List FrameRead}
  {events : List ReplayEvent} {popped queued applied pushed : List ItchEvent} {s : Pipeline}

theorem ProducerKnows.pushed_prefix (h : ProducerKnows source pushed s) :
    pushed <+: decodedEvents source := by
  unfold ProducerKnows at h
  cases hp : s.producer with
  | reading =>
    simp only [hp] at h
    exact ⟨_, h.1.symm⟩
  | pushing call =>
    simp only [hp] at h
    exact ⟨_, h.1.symm⟩
  | storeFailed =>
    simp only [hp] at h
    exact ⟨[], by rw [List.append_nil, h.1]⟩
  | storeDone =>
    simp only [hp] at h
    exact ⟨[], by rw [List.append_nil, h.1]⟩
  | finished =>
    simp only [hp] at h
    exact ⟨[], by rw [List.append_nil, h.1]⟩

theorem ConsumerKnows.popped_eq (h : ConsumerKnows popped queued applied s) :
    ∃ taken : List ItchEvent, popped = applied ++ taken ∧ taken.length ≤ 1 := by
  unfold ConsumerKnows at h
  have hsame : popped = applied → ∃ taken : List ItchEvent, popped = applied ++ taken ∧
      taken.length ≤ 1 := fun heq => ⟨[], by rw [List.append_nil, heq], Nat.zero_le 1⟩
  cases hc : s.consumer with
  | loadDone =>
    simp only [hc] at h
    exact hsame h
  | empty point =>
    simp only [hc] at h
    exact hsame h.1
  | popping call =>
    simp only [hc] at h
    exact hsame h
  | applying =>
    simp only [hc] at h
    exact ⟨[s.queued], h, le_rfl⟩
  | exited =>
    simp only [hc] at h
    exact hsame h.1
  | ended failed =>
    simp only [hc] at h
    exact hsame h.1

/-- The events are applied in the order of the file, and the ring bounds how many are in flight. -/
theorem Between.in_flight (h : Between capacity limits source events popped queued s) :
    pushedEvents events <+: decodedEvents source ∧ appliedEvents events <+: pushedEvents events ∧
      (pushedEvents events).length ≤ (appliedEvents events).length + capacity.toNat + 1 := by
  obtain ⟨taken, hpopped, htaken⟩ := h.consumer.popped_eq
  have hpushed := h.pushed
  have hfits := h.ring.fits
  rw [h.ring.size] at hfits
  rw [hpopped, List.append_assoc] at hpushed
  refine ⟨h.producer.pushed_prefix, ⟨_, hpushed.symm⟩, ?_⟩
  rw [hpushed, List.length_append, List.length_append]
  omega

end Pipeline

namespace Main

/-- **The streams at every moment**, once the ring is constructed. However the threads have taken
turns, no step has failed, the program has measured the first events of the file and has written their
checkpoints, or it has returned with the whole output; and the producer is at most the ring and one
event ahead. -/
theorem replay_streams (config : ReplayConfig) {memory : SlotMemory}
    (hring : config.ringCapacity.toNat.isPowerOfTwo) (hmemory : memory.Grants config.ringCapacity)
    (moved : ItchEvent → ItchEvent) (source : List FrameRead) (unused : ItchEvent)
    (actions : List MainAction) :
    ∃ queue readings s pushed, SpscRing.new memory config.ringCapacity = .ok queue ∧
      (trace (step config moved) actions).run (start config queue source unused) = .ok readings s ∧
      readings.length ≤ pushed ∧ pushed ≤ (decodedEvents source).length ∧
      pushed ≤ readings.length + config.ringCapacity.toNat + 1 ∧
      s.pipeline.decodedMessages = BitVec.ofNat 64 pushed ∧
      Measured config ((decodedEvents source).take readings.length) readings s ∧
      Written config source ((decodedEvents source).take readings.length) readings s := by
  obtain ⟨queue, hqueue⟩ := SpscRing.new_ok (T := ItchEvent) hring hmemory
  obtain ⟨readings, s, run, ⟨events, h⟩, _⟩ :=
    step_progresses.trace actions ⟨[], start_invariant hqueue source unused⟩
  rw [List.nil_append] at h
  obtain ⟨_, _, hbetween⟩ := h.running.1
  obtain ⟨hfile, happlied, hflight⟩ := hbetween.in_flight
  have hlength := h.measured.length
  have htake : (decodedEvents source).take readings.length = appliedEvents events := by
    rw [hlength]
    exact (List.prefix_iff_eq_take.mp (happlied.trans hfile)).symm
  refine ⟨queue, readings, s, (pushedEvents events).length, hqueue, run, ?_, hfile.length_le, ?_,
    hbetween.counted, ?_, ?_⟩
  · rw [hlength]
    exact happlied.length_le
  · rw [hlength]
    exact hflight
  · rw [htake]
    exact h.measured
  · rw [htake]
    exact h.written

/-- Two events through a ring of one slot, stopped when the first is applied and its checkpoint
written. -/
theorem replay_streams_two :
    let config : ReplayConfig := { ringCapacity := 1, checkpointEvery := 1 }
    let source : List FrameRead := [.frame addFrame, .frame cancelFrame]
    let actions := List.replicate 20 .producer ++ List.replicate 7 (.consumer .bump ⟨5, 9, 0⟩)
    ∃ queue readings s, SpscRing.new ⟨64, 1024, true⟩ config.ringCapacity = .ok queue ∧
      (trace (step config id) actions).run
        (start config queue source (.skippedMessage ⟨0, none⟩)) = .ok readings s ∧
      s.err = ["event=checkpoint applied=1 instruments=1 resting_orders=1 rejected=0"] ∧
      s.pipeline.decodedMessages = 1 ∧ readings.length = 1 ∧
      Measured config ((decodedEvents source).take 1) readings s ∧
      Written config source ((decodedEvents source).take 1) readings s := by
  intro config source actions
  obtain ⟨queue, readings, s, _, hqueue, run, _, _, _, _, hmeasured, hwritten⟩ :=
    @replay_streams config ⟨64, 1024, true⟩ ⟨0, rfl⟩ (by decide) id source
      (.skippedMessage ⟨0, none⟩) actions
  obtain ⟨_, rfl⟩ := SpscRing.new_eq_ok hqueue
  have hparts : (s.err, s.pipeline.decodedMessages, readings.length) =
      (["event=checkpoint applied=1 instruments=1 resting_orders=1 rejected=0"], 1, 1) :=
    of_evaluate run (fun readings s => (s.err, s.pipeline.decodedMessages, readings.length))
      (by decide +kernel)
  obtain ⟨herr, hpushed, hlength⟩ := by simpa only [Prod.mk.injEq] using hparts
  rw [hlength] at hmeasured hwritten
  exact ⟨_, readings, s, hqueue, run, herr, hpushed, hlength, hmeasured, hwritten⟩

/-- Threads that alternate get their turns. -/
theorem fair_alternating (place : Placement) (readings : Readings) :
    Fair (fun action : MainAction => action.onPipeline.thread)
      (fun n => if n % 2 = 0 then .producer else .consumer place readings) := by
  intro thread n
  cases thread with
  | producer =>
    refine ⟨2 * n, by omega, ?_⟩
    simp only [Nat.mul_mod_right, if_pos]
    rfl
  | consumer =>
    refine ⟨2 * n + 1, by omega, ?_⟩
    simp only [Nat.mul_add_mod, if_neg (show ¬1 % 2 = 0 by decide)]
    rfl

/-- However the threads take turns, as long as each gets its turns, the program returns, and it has
printed and returns what the program without threads does. -/
theorem replay_returns {config : ReplayConfig} {memory : SlotMemory} {queue : SpscRing ItchEvent}
    (hqueue : SpscRing.new memory config.ringCapacity = .ok queue) (moved : ItchEvent → ItchEvent)
    (source : List FrameRead) (unused : ItchEvent) {turns : ℕ → MainAction}
    (hfair : Fair (fun action => action.onPipeline.thread) turns) :
    ∃ n, ∀ m, n ≤ m → ∃ readings s throughput,
      (trace (step config moved) (firstActions turns m)).run (start config queue source unused) =
        .ok readings s ∧
      readings.length = (decodedEvents source).length ∧
      s.output = some (config.output readings source throughput) := by
  obtain ⟨n, hn⟩ := step_progresses.fair hfair ⟨[], start_invariant hqueue source unused⟩
  refine ⟨n, fun m hm => ?_⟩
  obtain ⟨readings, s, run, ⟨events, h⟩, hrank⟩ := hn m hm
  obtain ⟨hlength, throughput, houtput⟩ := h.output (Pipeline.rank_eq_zero hrank)
  exact ⟨readings, s, throughput, run, hlength, houtput⟩

end Main

end Lob
