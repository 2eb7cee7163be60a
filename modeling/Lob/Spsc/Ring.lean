import Lob.Common

/-!
# The single-producer single-consumer ring

`emplace` and `tryPop` are taken apart into the accesses that another thread may come between: each
load of an index, each store of one, the construction in a slot and the move out of a slot with the
destruction that follows it. A call in progress is its arguments, its local copies of the indexes and
the point it has reached; one step of it runs on the shared ring, and leaves the call in progress or
returns its result. An index counts operations modulo 2^64.
-/

namespace Lob

open Basis

abbrev Index := BitVec 64

/-- A slot holds a live object or none. -/
structure SpscRing (T : Type) where
  capacity : BitVec 64
  slots : ℕ → Option T
  writeIndex : Index
  readIndex : Index

/-- What the constructor throws. -/
inductive RingError where
  | invalidArgument
  | badArrayNewLength
  | badAlloc
  deriving DecidableEq

/-- What `make_unique<Slot[]>` depends on: the size of a slot, the most bytes that an array may have,
and whether the allocator grants them. -/
structure SlotMemory where
  slotSize : ℕ
  limit : ℕ
  granted : Bool

namespace SlotMemory

/-- There is memory for the slots of a ring. -/
def Grants (memory : SlotMemory) (capacity : BitVec 64) : Prop :=
  capacity.toNat * memory.slotSize ≤ memory.limit ∧ memory.granted = true

instance (memory : SlotMemory) (capacity : BitVec 64) : Decidable (memory.Grants capacity) :=
  inferInstanceAs (Decidable (_ ∧ _))

/-- The exception where there is none. -/
def exception (memory : SlotMemory) (capacity : BitVec 64) : RingError :=
  if memory.limit < capacity.toNat * memory.slotSize then .badArrayNewLength else .badAlloc

end SlotMemory

namespace SpscRing

variable {T : Type}

def mask (ring : SpscRing T) : BitVec 64 := ring.capacity - 1

/-- `allocate_slots`. The slots hold no objects yet. -/
def allocateSlots (memory : SlotMemory) (capacity : BitVec 64) : Except RingError (ℕ → Option T) :=
  if capacity = 0 ∨ capacity &&& (capacity - 1) ≠ 0 then .error .invalidArgument
  else if memory.limit < capacity.toNat * memory.slotSize then .error .badArrayNewLength
  else if memory.granted then .ok fun _ => none
  else .error .badAlloc

/-- What `allocate_slots` tests. -/
theorem not_powerOfTwo_iff (capacity : BitVec 64) :
    capacity = 0 ∨ capacity &&& (capacity - 1) ≠ 0 ↔ ¬capacity.toNat.isPowerOfTwo := by
  by_cases hzero : capacity = 0
  · have hnot : ¬Nat.isPowerOfTwo 0 := fun h => absurd (Nat.pos_of_isPowerOfTwo h) (Nat.lt_irrefl 0)
    rw [hzero]
    exact ⟨fun _ => hnot, fun _ => Or.inl rfl⟩
  · have hpos : capacity.toNat ≠ 0 := fun h0 => hzero (BitVec.eq_of_toNat_eq h0)
    have hsub : (capacity - 1).toNat = capacity.toNat - 1 := by bv_omega
    rw [← Nat.and_sub_one_eq_zero_iff_isPowerOfTwo hpos, ← hsub, ← BitVec.toNat_and, or_iff_right hzero]
    exact not_congr ⟨fun h => congrArg BitVec.toNat h, fun h => BitVec.eq_of_toNat_eq h⟩

/-- The constructor. -/
def new (memory : SlotMemory) (capacity : BitVec 64) : Except RingError (SpscRing T) := do
  return ⟨capacity, ← allocateSlots memory capacity, 0, 0⟩

def slotAt (ring : SpscRing T) (index : Index) : ℕ := (index &&& ring.mask).toNat

/-- Construction in the slot of `index`, which must hold no object. -/
def constructAt (index : Index) (object : T) : EStateM Fault (SpscRing T) Unit := do
  let ring ← get
  match ring.slots (ring.slotAt index) with
  | some _ => throw .badAccess
  | none =>
    set { ring with slots := Function.update ring.slots (ring.slotAt index) (some object) }

/-- Destruction of the object in the slot of `index`. Returns what it was. -/
def destroyAt (index : Index) : EStateM Fault (SpscRing T) T := do
  let ring ← get
  match ring.slots (ring.slotAt index) with
  | none => throw .badAccess
  | some object =>
    set { ring with slots := Function.update ring.slots (ring.slotAt index) none }
    return object

end SpscRing

/-! ## `emplace` -/

/-- How an object is made of an argument: the object, or none where its constructor throws, and what
is left of the argument. -/
abbrev Construction (A T : Type) := A → Option T × A

/-- `try_push(const T&)`. -/
def copyOf {T : Type} : Construction T T := fun value => (some value, value)

/-- `try_push(T&&)`. A move leaves `moved value` behind. -/
def moveOf {T : Type} (moved : T → T) : Construction T T := fun value => (some value, moved value)

inductive EmplaceResult where
  | pushed
  | full
  | threw
  deriving DecidableEq

inductive EmplacePoint where
  | loadWrite
  | loadRead (write : Index)
  | construct (write : Index)
  | storeWrite (write : Index)
  deriving DecidableEq

/-- A call of `emplace`. `argument` is what is left of the `given` one. -/
structure Emplacing (A T : Type) where
  construction : Construction A T
  given : A
  argument : A
  point : EmplacePoint

namespace Emplacing

variable {A T : Type}

def start (construction : Construction A T) (given : A) : Emplacing A T :=
  ⟨construction, given, given, .loadWrite⟩

def step (call : Emplacing A T) :
    EStateM Fault (SpscRing T) (Emplacing A T ⊕ EmplaceResult × A) := do
  match call.point with
  | .loadWrite =>
    let write := (← get).writeIndex
    return .inl { call with point := .loadRead write }
  | .loadRead write =>
    let read := (← get).readIndex
    if write - read = (← get).capacity then
      return .inr (.full, call.argument)
    return .inl { call with point := .construct write }
  | .construct write =>
    match call.construction call.argument with
    | (none, left) => return .inr (.threw, left)
    | (some object, left) =>
      SpscRing.constructAt write object
      return .inl { call with argument := left, point := .storeWrite write }
  | .storeWrite write =>
    modify fun ring => { ring with writeIndex := write + 1 }
    return .inr (.pushed, call.argument)

variable {construction : Construction A T} {given argument left : A} {write : Index}
  {ring ring' : SpscRing T}

theorem run_full (h : write - ring.readIndex = ring.capacity) :
    (⟨construction, given, argument, .loadRead write⟩ : Emplacing A T).step.run ring =
      .ok (.inr (.full, argument)) ring := by
  show (ite _ _ _ : EStateM Fault (SpscRing T) _) ring = _
  rw [if_pos h]
  rfl

theorem run_room (h : write - ring.readIndex ≠ ring.capacity) :
    (⟨construction, given, argument, .loadRead write⟩ : Emplacing A T).step.run ring =
      .ok (.inl ⟨construction, given, argument, .construct write⟩) ring := by
  show (ite _ _ _ : EStateM Fault (SpscRing T) _) ring = _
  rw [if_neg h]
  rfl

theorem run_threw (h : construction argument = (none, left)) :
    (⟨construction, given, argument, .construct write⟩ : Emplacing A T).step.run ring =
      .ok (.inr (.threw, left)) ring := by
  unfold step
  simp only [h]
  rfl

theorem run_constructed {object : T} (h : construction argument = (some object, left))
    (run : (SpscRing.constructAt write object).run ring = .ok () ring') :
    (⟨construction, given, argument, .construct write⟩ : Emplacing A T).step.run ring =
      .ok (.inl ⟨construction, given, left, .storeWrite write⟩) ring' := by
  unfold step
  simp only [h]
  rw [run_bind_ok run]
  rfl

end Emplacing

/-! ## `tryPop` -/

inductive PopPoint where
  | loadRead
  | loadWrite (read : Index)
  | take (read : Index)
  | storeRead (read : Index)
  deriving DecidableEq

/-- A call of `try_pop`. `out` was `given` before the call. -/
structure Popping (T : Type) where
  given : T
  out : T
  point : PopPoint

namespace Popping

variable {T : Type}

def start (given : T) : Popping T := ⟨given, given, .loadRead⟩

def step (call : Popping T) : EStateM Fault (SpscRing T) (Popping T ⊕ Bool × T) := do
  match call.point with
  | .loadRead =>
    let read := (← get).readIndex
    return .inl { call with point := .loadWrite read }
  | .loadWrite read =>
    let write := (← get).writeIndex
    if read = write then
      return .inr (false, call.out)
    return .inl { call with point := .take read }
  | .take read =>
    let object ← SpscRing.destroyAt read
    return .inl { call with out := object, point := .storeRead read }
  | .storeRead read =>
    modify fun ring => { ring with readIndex := read + 1 }
    return .inr (true, call.out)

variable {given out object : T} {read : Index} {ring ring' : SpscRing T}

theorem run_empty (h : read = ring.writeIndex) :
    (⟨given, out, .loadWrite read⟩ : Popping T).step.run ring = .ok (.inr (false, out)) ring := by
  show (ite _ _ _ : EStateM Fault (SpscRing T) _) ring = _
  rw [if_pos h]
  rfl

theorem run_nonempty (h : read ≠ ring.writeIndex) :
    (⟨given, out, .loadWrite read⟩ : Popping T).step.run ring =
      .ok (.inl ⟨given, out, .take read⟩) ring := by
  show (ite _ _ _ : EStateM Fault (SpscRing T) _) ring = _
  rw [if_neg h]
  rfl

theorem run_take (run : (SpscRing.destroyAt read).run ring = .ok object ring') :
    (⟨given, out, .take read⟩ : Popping T).step.run ring =
      .ok (.inl ⟨given, object, .storeRead read⟩) ring' := by
  unfold step
  rw [run_bind_ok run]
  rfl

end Popping

/-! ## Queries -/

/-- `full` and `empty` load the index of their own thread first. -/
inductive QueryPoint where
  | loadOwn
  | loadOther (own : Index)
  deriving DecidableEq

namespace SpscRing

variable {T : Type}

def fullStep : QueryPoint → EStateM Fault (SpscRing T) (QueryPoint ⊕ Bool)
  | .loadOwn => return .inl (.loadOther (← get).writeIndex)
  | .loadOther write => do
    let read := (← get).readIndex
    return .inr (decide (write - read = (← get).capacity))

def emptyStep : QueryPoint → EStateM Fault (SpscRing T) (QueryPoint ⊕ Bool)
  | .loadOwn => return .inl (.loadOther (← get).readIndex)
  | .loadOther read => do
    let write := (← get).writeIndex
    return .inr (decide (read = write))

/-! ## The destructor -/

/-- The objects destroyed between `read` and `write`, in order. -/
def clearLoop (write : Index) : ℕ → Index → EStateM Fault (SpscRing T) (List T)
  | 0, _ => throw .outOfFuel
  | fuel + 1, read => do
    if read ≠ write then
      let object ← destroyAt read
      return object :: (← clearLoop write fuel (read + 1))
    return []

/-- Each round brings `read` closer to `write`. -/
def clear : EStateM Fault (SpscRing T) (List T) := do
  let read := (← get).readIndex
  let write := (← get).writeIndex
  clearLoop write ((write - read).toNat + 1) read

end SpscRing

end Lob
