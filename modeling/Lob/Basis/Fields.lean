import Mathlib.Data.BitVec
import Lob.Basis.Digits

/-!
# Fixed-width fields

A `Field` lays values out in a fixed number of symbols, without loss in either direction: a valid
value reads back from what it is written as, and an accepted input is what its value is written as.
Fields are put side by side by `seq` and carried over to a record by `map`.
-/

namespace Basis

structure Field (σ α : Type) where
  width : ℕ
  encode : α → List σ
  /-- Reads the first `width` symbols. -/
  decode : List σ → α
  Valid : α → Prop
  Accepts : List σ → Prop
  length_encode : ∀ a, (encode a).length = width
  decode_encode : ∀ a rest, Valid a → decode (encode a ++ rest) = a
  accepts_encode : ∀ a rest, Accepts (encode a ++ rest)
  encode_decode : ∀ input, width ≤ input.length → Accepts input →
    encode (decode input) = input.take width

namespace Field

variable {σ α β : Type}

/-- Two fields, one after the other. -/
def seq (f : Field σ α) (g : Field σ β) : Field σ (α × β) where
  width := f.width + g.width
  encode a := f.encode a.1 ++ g.encode a.2
  decode input := (f.decode input, g.decode (input.drop f.width))
  Valid a := f.Valid a.1 ∧ g.Valid a.2
  Accepts input := f.Accepts input ∧ g.Accepts (input.drop f.width)
  length_encode a := by rw [List.length_append, f.length_encode, g.length_encode]
  decode_encode a rest h := by
    rw [List.append_assoc, f.decode_encode _ _ h.1, List.drop_left' (f.length_encode _),
      g.decode_encode _ _ h.2]
  accepts_encode a rest := by
    rw [List.append_assoc, List.drop_left' (f.length_encode _)]
    exact ⟨f.accepts_encode _ _, g.accepts_encode _ _⟩
  encode_decode input hlen h := by
    rw [f.encode_decode _ (by omega) h.1,
      g.encode_decode _ (by rw [List.length_drop]; omega) h.2, List.take_add]

/-- A field of one type, read as another. -/
def map (f : Field σ α) (build : α → β) (parts : β → α)
    (build_parts : ∀ b, build (parts b) = b) (parts_build : ∀ a, parts (build a) = a) : Field σ β where
  width := f.width
  encode b := f.encode (parts b)
  decode input := build (f.decode input)
  Valid b := f.Valid (parts b)
  Accepts := f.Accepts
  length_encode b := f.length_encode _
  decode_encode b rest h := by rw [f.decode_encode _ _ h, build_parts]
  accepts_encode b rest := f.accepts_encode _ _
  encode_decode input hlen h := by rw [parts_build, f.encode_decode _ hlen h]

theorem seq_decode (f : Field σ α) (g : Field σ β) (input : List σ) :
    (f.seq g).decode input = (f.decode input, g.decode (input.drop f.width)) := rfl

theorem map_decode (f : Field σ α) (build : α → β) (parts : β → α)
    (build_parts : ∀ b, build (parts b) = b) (parts_build : ∀ a, parts (build a) = a) (input : List σ) :
    (f.map build parts build_parts parts_build).decode input = build (f.decode input) := rfl

@[simp] theorem seq_accepts (f : Field σ α) (g : Field σ β) (input : List σ) :
    (f.seq g).Accepts input ↔ f.Accepts input ∧ g.Accepts (input.drop f.width) := Iff.rfl

@[simp] theorem map_accepts (f : Field σ α) (build : α → β) (parts : β → α)
    (build_parts : ∀ b, build (parts b) = b) (parts_build : ∀ a, parts (build a) = a)
    (input : List σ) :
    (f.map build parts build_parts parts_build).Accepts input ↔ f.Accepts input := Iff.rfl

@[simp] theorem seq_valid (f : Field σ α) (g : Field σ β) (a : α × β) :
    (f.seq g).Valid a ↔ f.Valid a.1 ∧ g.Valid a.2 := Iff.rfl

@[simp] theorem map_valid (f : Field σ α) (build : α → β) (parts : β → α)
    (build_parts : ∀ b, build (parts b) = b) (parts_build : ∀ a, parts (build a) = a) (b : β) :
    (f.map build parts build_parts parts_build).Valid b ↔ f.Valid (parts b) := Iff.rfl

/-! ## Symbols -/

/-- One symbol. -/
def symbol [Inhabited σ] : Field σ σ where
  width := 1
  encode a := [a]
  decode input := input.headD default
  Valid _ := True
  Accepts _ := True
  length_encode _ := rfl
  decode_encode _ _ _ := rfl
  accepts_encode _ _ := trivial
  encode_decode input hlen _ := by
    cases input with
    | nil => cases hlen
    | cons a input => rfl

/-- A symbol that stands for one of the values of a type. -/
def coded [Inhabited σ] (write : α → σ) (read : σ → α) (read_write : ∀ a, read (write a) = a) :
    Field σ α where
  width := 1
  encode a := [write a]
  decode input := read (input.headD default)
  Valid _ := True
  Accepts input := ∃ a, input.headD default = write a
  length_encode _ := rfl
  decode_encode a _ _ := read_write a
  accepts_encode a _ := ⟨a, rfl⟩
  encode_decode input hlen h := by
    obtain ⟨a, ha⟩ := h
    cases input with
    | nil => cases hlen
    | cons b input =>
      change b = write a at ha
      subst ha
      show [write (read (write a))] = [write a]
      rw [read_write]

/-- A fixed number of symbols. -/
def symbols [Inhabited σ] (count : ℕ) : Field σ (Vector σ count) where
  width := count
  encode v := v.toList
  decode input := Vector.ofFn fun i => input.getD i default
  Valid _ := True
  Accepts _ := True
  length_encode v := by simp
  decode_encode v rest _ := by
    ext i hi
    rw [Vector.getElem_ofFn, List.getD_eq_getElem?_getD, List.getElem?_append_left (by simp [hi])]
    simp [hi]
  accepts_encode _ _ := trivial
  encode_decode input hlen _ := by
    apply List.ext_getElem
    · simp [hlen]
    · intro i h1 h2
      rw [List.length_take] at h2
      have hi : i < input.length := by omega
      simp [List.getElem?_eq_getElem hi]

@[simp] theorem symbol_accepts [Inhabited σ] (input : List σ) :
    (symbol : Field σ σ).Accepts input := trivial

@[simp] theorem symbol_valid [Inhabited σ] (a : σ) : (symbol : Field σ σ).Valid a := trivial

@[simp] theorem coded_accepts [Inhabited σ] (write : α → σ) (read : σ → α)
    (read_write : ∀ a, read (write a) = a) (input : List σ) :
    (coded write read read_write).Accepts input ↔ ∃ a, symbol.decode input = write a := Iff.rfl

@[simp] theorem coded_valid [Inhabited σ] (write : α → σ) (read : σ → α)
    (read_write : ∀ a, read (write a) = a) (a : α) : (coded write read read_write).Valid a :=
  trivial

@[simp] theorem symbols_accepts [Inhabited σ] (count : ℕ) (input : List σ) :
    (symbols count : Field σ _).Accepts input := trivial

@[simp] theorem symbols_valid [Inhabited σ] (count : ℕ) (v : Vector σ count) :
    (symbols count).Valid v := trivial

end Field

/-! ## Big-endian numbers -/

/-- The low `n` bytes of `v`, most significant first. -/
def bigEndian {w : ℕ} : ℕ → BitVec w → List (BitVec 8)
  | 0, _ => []
  | n + 1, v => (v >>> (8 * n)).setWidth 8 :: bigEndian n v

/-- The number with these bytes, most significant first. -/
def ofBigEndian (w : ℕ) (bytes : List (BitVec 8)) : BitVec w :=
  bytes.foldl (fun v b => v <<< 8 ||| b.setWidth w) 0

/-- The value of bytes, most significant first. -/
def byteValue : List (BitVec 8) → ℕ
  | [] => 0
  | b :: bytes => b.toNat * 256 ^ bytes.length + byteValue bytes

theorem byteValue_lt (bytes : List (BitVec 8)) : byteValue bytes < 256 ^ bytes.length := by
  induction bytes with
  | nil => exact Nat.one_pos
  | cons b bytes ih =>
    have hb : b.toNat + 1 ≤ 256 := b.isLt
    have := Nat.mul_le_mul_right (256 ^ bytes.length) hb
    show b.toNat * 256 ^ bytes.length + byteValue bytes < 256 ^ (bytes.length + 1)
    rw [Nat.pow_succ]
    rw [Nat.succ_mul] at this
    omega

theorem byteValue_inj {bytes bytes' : List (BitVec 8)} (hlen : bytes.length = bytes'.length)
    (h : byteValue bytes = byteValue bytes') : bytes = bytes' := by
  induction bytes generalizing bytes' with
  | nil => exact (List.length_eq_zero_iff.mp hlen.symm).symm
  | cons b bytes ih =>
    cases bytes' with
    | nil => cases hlen
    | cons b' bytes' =>
      have hlen : bytes.length = bytes'.length := Nat.succ.inj hlen
      change b.toNat * _ + _ = b'.toNat * _ + _ at h
      have hlt := byteValue_lt bytes'
      rw [← hlen] at h hlt
      obtain ⟨hb, hrest⟩ := digits_inj (byteValue_lt bytes) hlt h
      rw [BitVec.eq_of_toNat_eq hb, ih hlen hrest]

@[simp] theorem length_bigEndian {w : ℕ} (n : ℕ) (v : BitVec w) :
    (bigEndian n v).length = n := by
  induction n with
  | zero => rfl
  | succ n ih =>
    show (bigEndian n v).length + 1 = n + 1
    rw [ih]

theorem byteValue_bigEndian {w : ℕ} (n : ℕ) (v : BitVec w) :
    byteValue (bigEndian n v) = v.toNat % 256 ^ n := by
  induction n with
  | zero => exact (Nat.mod_one _).symm
  | succ n ih =>
    show ((v >>> (8 * n)).setWidth 8).toNat * 256 ^ (bigEndian n v).length + _ = _
    have hdigit : ((v >>> (8 * n)).setWidth 8).toNat = v.toNat / 256 ^ n % 256 := by
      rw [BitVec.toNat_setWidth, BitVec.toNat_ushiftRight, Nat.shiftRight_eq_div_pow, Nat.pow_mul]
    rw [ih, length_bigEndian, hdigit, Nat.mod_pow_succ, Nat.add_comm, Nat.mul_comm]

theorem toNat_appendByte {w : ℕ} {v : BitVec w} (b : BitVec 8) (hv : (v.toNat + 1) * 256 ≤ 2 ^ w) :
    (v <<< 8 ||| b.setWidth w).toNat = v.toNat * 256 + b.toNat := by
  have hb := b.isLt
  have hw : (b.setWidth w).toNat = b.toNat := by
    rw [BitVec.toNat_setWidth, Nat.mod_eq_of_lt (by omega)]
  have h := toNat_shiftLeft_or (k := 8) (x := v) (y := b.setWidth w) (by omega) (by omega)
  rw [h, hw, show 2 ^ 8 = 256 from rfl]

/-- Each byte makes room for the next, while the number fits. -/
theorem toNat_foldl_byte {w : ℕ} (bytes : List (BitVec 8)) :
    ∀ v : BitVec w, (v.toNat + 1) * 256 ^ bytes.length ≤ 2 ^ w →
      (bytes.foldl (fun (v : BitVec w) b => v <<< 8 ||| b.setWidth w) v).toNat =
        v.toNat * 256 ^ bytes.length + byteValue bytes := by
  induction bytes with
  | nil =>
    intro v _
    show v.toNat = v.toNat * 1 + 0
    omega
  | cons b bytes ih =>
    intro v hv
    have hpow : 256 ^ (bytes.length + 1) = 256 * 256 ^ bytes.length := Nat.pow_succ'
    have hpos : 1 ≤ 256 ^ bytes.length := Nat.one_le_pow _ _ (by omega)
    rw [List.length_cons, hpow, ← Nat.mul_assoc] at hv
    have hbyte := toNat_appendByte b (le_trans (Nat.le_mul_of_pos_right _ hpos) hv)
    have hb := b.isLt
    rw [List.foldl_cons, ih _ ?_, hbyte, List.length_cons, hpow, Nat.add_mul, Nat.mul_assoc,
      Nat.add_assoc]
    · rfl
    · rw [hbyte]
      exact le_trans (Nat.mul_le_mul_right _ (by omega)) hv

theorem toNat_ofBigEndian {w : ℕ} {bytes : List (BitVec 8)} (h : 8 * bytes.length ≤ w) :
    (ofBigEndian w bytes).toNat = byteValue bytes := by
  unfold ofBigEndian
  rw [toNat_foldl_byte]
  · simp
  · rw [show (0 : BitVec w).toNat = 0 from BitVec.toNat_zero, Nat.zero_add, Nat.one_mul,
      show 256 = 2 ^ 8 from rfl, ← Nat.pow_mul]
    exact Nat.pow_le_pow_right (by omega) h

theorem ofBigEndian_bigEndian {w n : ℕ} (hn : 8 * n ≤ w) {v : BitVec w} (hv : v.toNat < 256 ^ n) :
    ofBigEndian w (bigEndian n v) = v := by
  refine BitVec.eq_of_toNat_eq ?_
  rw [toNat_ofBigEndian (by rw [length_bigEndian]; exact hn), byteValue_bigEndian,
    Nat.mod_eq_of_lt hv]

theorem bigEndian_ofBigEndian {w n : ℕ} (hn : 8 * n ≤ w) {bytes : List (BitVec 8)}
    (hlen : bytes.length = n) : bigEndian n (ofBigEndian w bytes) = bytes := by
  subst hlen
  refine byteValue_inj (length_bigEndian _ _) ?_
  rw [byteValue_bigEndian, toNat_ofBigEndian hn, Nat.mod_eq_of_lt (byteValue_lt bytes)]

/-- A number of `n` bytes, in a word that may be wider. -/
def Field.number (w n : ℕ) (hn : 8 * n ≤ w) : Field (BitVec 8) (BitVec w) where
  width := n
  encode := bigEndian n
  decode input := ofBigEndian w (input.take n)
  Valid v := v.toNat < 256 ^ n
  Accepts _ := True
  length_encode := length_bigEndian n
  decode_encode v rest h := by
    rw [List.take_left' (length_bigEndian n v), ofBigEndian_bigEndian hn h]
  accepts_encode _ _ := trivial
  encode_decode input hlen _ := by
    rw [bigEndian_ofBigEndian hn]
    rw [List.length_take]
    omega

@[simp] theorem Field.number_accepts {w n : ℕ} (hn : 8 * n ≤ w) (input : List (BitVec 8)) :
    (number w n hn).Accepts input := trivial

/-- A word of its own width is always valid. -/
theorem Field.number_valid {w n : ℕ} (hn : 8 * n ≤ w) (hw : w ≤ 8 * n) (v : BitVec w) :
    (number w n hn).Valid v := by
  show v.toNat < 256 ^ n
  rw [show 256 = 2 ^ 8 from rfl, ← Nat.pow_mul]
  exact lt_of_lt_of_le v.isLt (Nat.pow_le_pow_right (by omega) hw)

end Basis
