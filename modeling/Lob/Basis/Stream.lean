import Mathlib.Tactic.Common

/-!
# Streaming decoders

A decoder takes items off the front of the symbols it is given, waits for more, or stops. A client
keeps the symbols that are not used yet and drains them after every chunk it receives. If more input
never changes what the decoder has decided, then the client obtains the same from every way to cut
the input into chunks.
-/

namespace Basis

/-- What a decoder makes of its input: an item with the number of symbols it takes, an error with
its offset, or neither yet. -/
inductive Step (ε α : Type) where
  | wait
  | item (a : α) (count : ℕ)
  | stop (error : ε) (offset : ℕ)

/-- `consumed` symbols are dropped, `pending` ones retained; an error is placed in the whole stream. -/
structure Client (σ ε α : Type) where
  pending : List σ
  consumed : ℕ
  items : List α
  failure : Option (ε × ℕ)

namespace Client

variable {σ ε α : Type}

def new : Client σ ε α := ⟨[], 0, [], none⟩

def advance (c : Client σ ε α) (a : α) (count : ℕ) : Client σ ε α :=
  { c with
    pending := c.pending.drop count
    consumed := c.consumed + count
    items := c.items ++ [a] }

def fail (c : Client σ ε α) (error : ε) (offset : ℕ) : Client σ ε α :=
  { c with failure := some (error, c.consumed + offset) }

def append (c : Client σ ε α) (chunk : List σ) : Client σ ε α :=
  { c with pending := c.pending ++ chunk }

variable (decode : List σ → Step ε α)

/-- Takes all the items that are there. An item of no symbols would be taken for ever. -/
def drain (c : Client σ ε α) : Client σ ε α :=
  match decode c.pending with
  | .wait => c
  | .stop error offset => c.fail error offset
  | .item a count =>
    if _h : 0 < count ∧ count ≤ c.pending.length then drain (c.advance a count) else c
termination_by c.pending.length
decreasing_by
  show (c.pending.drop count).length < c.pending.length
  rw [List.length_drop]
  omega

def receive (c : Client σ ε α) (chunk : List σ) : Client σ ε α :=
  if c.failure.isSome then c else (c.append chunk).drain decode

def receiveAll (c : Client σ ε α) (chunks : List (List σ)) : Client σ ε α :=
  chunks.foldl (receive decode) c

/-- More input changes no decision, an item takes symbols that are there, and nothing is decided
without input. -/
structure Stable : Prop where
  nil : decode [] = .wait
  count : ∀ {input a count}, decode input = .item a count → 0 < count ∧ count ≤ input.length
  append : ∀ {input}, decode input ≠ .wait → ∀ rest, decode (input ++ rest) = decode input

/-- The clients have obtained the same. After an error the retained symbols do not matter. -/
structure Same (c c' : Client σ ε α) : Prop where
  items : c.items = c'.items
  failure : c.failure = c'.failure
  consumed : c.consumed = c'.consumed
  pending : c.failure = none → c.pending = c'.pending

theorem Same.refl (c : Client σ ε α) : Same c c := ⟨rfl, rfl, rfl, fun _ => rfl⟩

theorem Same.trans {c c' c'' : Client σ ε α} (h : Same c c') (h' : Same c' c'') : Same c c'' :=
  ⟨h.items.trans h'.items, h.failure.trans h'.failure, h.consumed.trans h'.consumed,
    fun hf => (h.pending hf).trans (h'.pending (h.failure ▸ hf))⟩

variable {decode} {c : Client σ ε α}

theorem drain_wait (h : decode c.pending = .wait) : c.drain decode = c := by
  rw [drain, h]

theorem drain_stop {error : ε} {offset : ℕ} (h : decode c.pending = .stop error offset) :
    c.drain decode = c.fail error offset := by
  rw [drain, h]

theorem Stable.drain_item (hs : Stable decode) {a : α} {count : ℕ}
    (h : decode c.pending = .item a count) :
    c.drain decode = (c.advance a count).drain decode := by
  rw [drain, h]
  exact dif_pos (hs.count h)

/-- Nothing more can be drained. -/
def Drained (decode : List σ → Step ε α) (c : Client σ ε α) : Prop :=
  c.failure ≠ none ∨ decode c.pending = .wait

theorem drain_drained (hs : Stable decode) (c : Client σ ε α) :
    Drained decode (c.drain decode) := by
  induction hn : c.pending.length using Nat.strongRecOn generalizing c with
  | _ n ih =>
    cases hd : decode c.pending with
    | wait => rw [drain_wait hd]; exact Or.inr hd
    | stop error offset => rw [drain_stop hd]; exact Or.inl (by simp [fail])
    | item a count =>
      obtain ⟨hpos, hle⟩ := hs.count hd
      rw [hs.drain_item hd]
      refine ih _ ?_ (c.advance a count) rfl
      show (c.pending.drop count).length < n
      rw [List.length_drop]
      omega

/-- **Draining before more input arrives** changes nothing. -/
theorem receive_drain (hs : Stable decode) (hf : c.failure = none) (chunk : List σ) :
    Same ((c.drain decode).receive decode chunk) ((c.append chunk).drain decode) := by
  induction hn : c.pending.length using Nat.strongRecOn generalizing c with
  | _ n ih =>
    cases hd : decode c.pending with
    | wait =>
      rw [drain_wait hd]
      unfold receive
      rw [hf]
      exact Same.refl _
    | stop error offset =>
      have hd' : decode (c.append chunk).pending = .stop error offset :=
        (hs.append (by rw [hd]; simp) chunk).trans hd
      rw [drain_stop hd, drain_stop hd']
      exact ⟨rfl, rfl, rfl, fun h => by cases h⟩
    | item a count =>
      obtain ⟨hpos, hle⟩ := hs.count hd
      have hd' : decode (c.append chunk).pending = .item a count :=
        (hs.append (by rw [hd]; simp) chunk).trans hd
      have hadvance : (c.append chunk).advance a count = (c.advance a count).append chunk := by
        unfold advance append
        simp only [List.drop_append_of_le_length hle]
      rw [hs.drain_item hd, hs.drain_item hd', hadvance]
      refine ih _ ?_ (c := c.advance a count) hf rfl
      show (c.pending.drop count).length < n
      rw [List.length_drop]
      omega

theorem receive_append (hs : Stable decode) (c : Client σ ε α) (chunk chunk' : List σ) :
    Same ((c.receive decode chunk).receive decode chunk') (c.receive decode (chunk ++ chunk')) := by
  by_cases hf : c.failure = none
  swap
  · have hsome : c.failure.isSome = true := Option.isSome_iff_ne_none.mpr hf
    unfold receive
    rw [if_pos hsome, if_pos hsome, if_pos hsome]
    exact Same.refl c
  have happend : c.append (chunk ++ chunk') = (c.append chunk).append chunk' := by
    unfold append
    rw [List.append_assoc]
  have hreceive : ∀ chunk, c.receive decode chunk = (c.append chunk).drain decode := by
    intro chunk
    unfold receive
    rw [hf]
    rfl
  rw [hreceive, hreceive, happend]
  exact receive_drain hs (c := c.append chunk) hf chunk'

theorem receive_drained (hs : Stable decode) (hc : Drained decode c) (chunk : List σ) :
    Drained decode (c.receive decode chunk) := by
  unfold receive
  split_ifs
  · exact hc
  · exact drain_drained hs _

theorem receive_nil (hc : Drained decode c) : c.receive decode [] = c := by
  have happend : c.append [] = c := by
    unfold append
    rw [List.append_nil]
  unfold receive
  split_ifs with hf
  · rfl
  · rw [happend]
    refine drain_wait (hc.resolve_left fun h => hf ?_)
    exact Option.isSome_iff_ne_none.mpr h

/-- **Chunks do not matter.** -/
theorem receiveAll_flatten (hs : Stable decode) (chunks : List (List σ)) :
    ∀ {c : Client σ ε α}, Drained decode c →
      Same (c.receiveAll decode chunks) (c.receive decode chunks.flatten) := by
  induction chunks with
  | nil =>
    intro c hc
    rw [List.flatten_nil, receive_nil hc]
    exact Same.refl c
  | cons chunk chunks ih =>
    intro c hc
    exact (ih (receive_drained hs hc chunk)).trans (receive_append hs c chunk chunks.flatten)

theorem new_drained (hs : Stable decode) : Drained decode (new : Client σ ε α) := Or.inr hs.nil

end Client

end Basis
