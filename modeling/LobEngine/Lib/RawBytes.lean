import Mathlib.Data.UInt

/-!
# Values stored as raw bytes

A layout says how many bytes a value takes and how they are written and read. Reading from a
stream goes on where the last read stopped. A read that finds too few bytes takes what is left,
overwrites the front of the value with it and fails, and after a failure no read does anything.
-/

universe u

/-- How a value lies in memory. -/
structure Layout (α : Type u) where
  size : Nat
  write : α → List UInt8
  read : List UInt8 → α
  length_write : ∀ a, (write a).length = size

/-- The bytes that are left, and whether every read so far was served. -/
structure InStream where
  rest : List UInt8
  good : Bool
  deriving DecidableEq

/-- The stream behind the first `n` bytes; bad where there are fewer. -/
def InStream.behind (n : Nat) (bytes : List UInt8) : InStream :=
  ⟨bytes.drop n, decide (n ≤ bytes.length)⟩

namespace Layout

variable {α : Type u}

/-- The bytes of the value read back as the value. -/
def Restores (l : Layout α) (a : α) : Prop := l.read (l.write a) = a

instance [DecidableEq α] (l : Layout α) (a : α) : Decidable (l.Restores a) :=
  inferInstanceAs (Decidable (_ = _))

/-- Read over the value `a`. -/
def readInto (l : Layout α) (a : α) (s : InStream) : α × InStream :=
  if s.good then
    if l.size ≤ s.rest.length then (l.read (s.rest.take l.size), ⟨s.rest.drop l.size, true⟩)
    else (l.read (s.rest ++ (l.write a).drop s.rest.length), ⟨[], false⟩)
  else (a, s)

/-- What was written is read back, and the stream stands behind it. -/
theorem readInto_write {l : Layout α} {a : α} (h : l.Restores a) (old : α) (rest : List UInt8) :
    l.readInto old ⟨l.write a ++ rest, true⟩ = (a, ⟨rest, true⟩) := by
  have hsize : l.size ≤ (l.write a ++ rest).length := by
    rw [List.length_append, l.length_write]
    omega
  unfold readInto
  rw [if_pos rfl, if_pos hsize, ← l.length_write a, List.take_left, List.drop_left, h]

end Layout

/-! ### Words -/

/-- The `k` lowest bytes of a number, lowest first. -/
def bytesLE : Nat → Nat → List UInt8
  | 0, _ => []
  | k + 1, n => UInt8.ofNat n :: bytesLE k (n / 256)

/-- The number with the given bytes, lowest first. -/
def ofBytesLE : List UInt8 → Nat
  | [] => 0
  | b :: bs => b.toNat + 256 * ofBytesLE bs

@[simp] theorem length_bytesLE (k n : Nat) : (bytesLE k n).length = k := by
  induction k generalizing n with
  | zero => rfl
  | succ k ih => rw [bytesLE, List.length_cons, ih]

/-- Bytes keep a number up to its highest part. -/
theorem ofBytesLE_bytesLE (k n : Nat) : ofBytesLE (bytesLE k n) = n % 256 ^ k := by
  induction k generalizing n with
  | zero => simp [bytesLE, ofBytesLE, Nat.mod_one]
  | succ k ih =>
    have hlow : (UInt8.ofNat n).toNat = n % 256 := UInt8.toNat_ofNat'
    rw [bytesLE, ofBytesLE, ih, hlow, Nat.pow_succ']
    exact Nat.mod_mul.symm

namespace Layout

/-- `uint32_t`. -/
def word32 : Layout UInt32 where
  size := 4
  write w := bytesLE 4 w.toNat
  read bs := UInt32.ofNat (ofBytesLE bs)
  length_write w := length_bytesLE 4 w.toNat

/-- `uint64_t`. -/
def word64 : Layout UInt64 where
  size := 8
  write w := bytesLE 8 w.toNat
  read bs := UInt64.ofNat (ofBytesLE bs)
  length_write w := length_bytesLE 8 w.toNat

/-- `int64_t`, in two's complement. -/
def int64 : Layout Int where
  size := 8
  write p := bytesLE 8 (p % 2 ^ 64).toNat
  read bs := Int.bmod (ofBytesLE bs) (2 ^ 64)
  length_write p := length_bytesLE 8 (p % 2 ^ 64).toNat

theorem word32_restores (w : UInt32) : word32.Restores w := by
  unfold Restores
  apply UInt32.toNat_inj.mp
  have hw := w.toNat_lt
  simp only [word32, ofBytesLE_bytesLE, UInt32.toNat_ofNat']
  omega

theorem word64_restores (w : UInt64) : word64.Restores w := by
  unfold Restores
  apply UInt64.toNat_inj.mp
  have hw := w.toNat_lt
  simp only [word64, ofBytesLE_bytesLE, UInt64.toNat_ofNat']
  omega

/-- A number of 64 bits reads back. -/
theorem int64_restores {p : Int} (h : -2 ^ 63 ≤ p) (h' : p < 2 ^ 63) : int64.Restores p := by
  unfold Restores
  simp only [int64, ofBytesLE_bytesLE]
  rw [Int.bmod_def]
  omega

/-- `uint8_t`. -/
def byte : Layout UInt8 where
  size := 1
  write b := [b]
  read bs := bs.headD 0
  length_write _ := rfl

theorem byte_restores (b : UInt8) : byte.Restores b := rfl

/-! ### Reading at an offset -/

section Offset

variable {α : Type u} {l : Layout α} {bytes : List UInt8} {n : Nat}

/-- The value whose bytes start at an offset, read from as many of them as there are. -/
def field (l : Layout α) (n : Nat) (bytes : List UInt8) : α := l.read ((bytes.drop n).take l.size)

/-- A read leaves the stream behind the value, whether it was there or not. -/
theorem readInto_behind_snd (l : Layout α) (a : α) (n : Nat) (bytes : List UInt8) :
    (l.readInto a (.behind n bytes)).2 = .behind (n + l.size) bytes := by
  simp only [readInto, InStream.behind, decide_eq_true_eq, List.length_drop, List.drop_drop]
  by_cases hw : n + l.size ≤ bytes.length
  · rw [if_pos (by omega), if_pos (by omega), decide_eq_true hw]
  · have hend : bytes.drop (n + l.size) = [] := List.drop_eq_nil_of_le (by omega)
    rw [hend, decide_eq_false hw]
    by_cases hn : n ≤ bytes.length
    · rw [if_pos hn, if_neg (by omega)]
    · have hnil : bytes.drop n = [] := List.drop_eq_nil_of_le (by omega)
      rw [if_neg hn, hnil, decide_eq_false hn]

/-- A value that is there is read, whatever was held before. -/
theorem readInto_behind_fst (a : α) (h : n + l.size ≤ bytes.length) :
    (l.readInto a (.behind n bytes)).1 = l.field n bytes := by
  have hn : n ≤ bytes.length := by omega
  have hs : l.size ≤ bytes.length - n := by omega
  simp only [readInto, InStream.behind, decide_eq_true_eq, List.length_drop, if_pos hn, if_pos hs,
    field]

/-- Over a value of zeros, what is missing counts as zeros. -/
theorem readInto_behind_zero {z : α} (hz : l.write z = List.replicate l.size 0)
    (hr : ∀ bs k, l.read (bs ++ List.replicate k 0) = l.read bs) (hrestores : l.Restores z) :
    (l.readInto z (.behind n bytes)).1 = l.field n bytes := by
  by_cases hw : n + l.size ≤ bytes.length
  · exact readInto_behind_fst z hw
  · have hlen : (bytes.drop n).length ≤ l.size := by
      rw [List.length_drop]
      omega
    simp only [readInto, InStream.behind, decide_eq_true_eq, List.length_drop, field,
      List.take_of_length_le hlen]
    by_cases hn : n ≤ bytes.length
    · rw [if_pos hn, if_neg (by omega), hz, List.drop_replicate, hr]
    · have hnil : bytes.drop n = [] := List.drop_eq_nil_of_le (by omega)
      have hread := hr [] l.size
      rw [List.nil_append, ← hz, hrestores] at hread
      rw [if_neg hn, hnil, hread]

/-- A read leaves the value it is made over exactly if the bytes that are there are its own. -/
theorem readInto_behind_eq_self_iff {a : α} (ha : l.Restores a)
    (hi : ∀ bs bs', bs.length = l.size → bs'.length = l.size → l.read bs = l.read bs' →
      bs = bs') :
    (l.readInto a (.behind n bytes)).1 = a ↔ (bytes.drop n).take l.size <+: l.write a := by
  have hwrite := l.length_write a
  by_cases hw : n + l.size ≤ bytes.length
  · have hlen : ((bytes.drop n).take l.size).length = l.size := by
      rw [List.length_take, List.length_drop]
      omega
    rw [readInto_behind_fst a hw]
    constructor
    · intro h
      have heq := hi _ _ hlen hwrite (h.trans ha.symm)
      rw [heq]
    · intro h
      have heq := h.eq_of_length (hlen.trans hwrite.symm)
      rw [field, heq, ha]
  · have hlen : (bytes.drop n).length ≤ l.size := by
      rw [List.length_drop]
      omega
    simp only [readInto, InStream.behind, decide_eq_true_eq, List.length_drop,
      List.take_of_length_le hlen]
    by_cases hn : n ≤ bytes.length
    · rw [if_pos hn, if_neg (by omega)]
      simp only
      constructor
      · intro h
        refine ⟨(l.write a).drop (bytes.drop n).length, hi _ _ ?_ hwrite ?_⟩
        · rw [List.length_append, List.length_drop (l := l.write a), hwrite]
          omega
        · rw [List.length_drop, h, ha]
      · rintro ⟨rest, h⟩
        rw [← h, ← List.length_drop, List.drop_left, h, ha]
    · have hnil : bytes.drop n = [] := List.drop_eq_nil_of_le (by omega)
      rw [if_neg hn, hnil]
      exact ⟨fun _ ↦ List.nil_prefix, fun _ ↦ rfl⟩

/-- High zeros do not count. -/
theorem ofBytesLE_append_zeros (bs : List UInt8) (k : Nat) :
    ofBytesLE (bs ++ List.replicate k 0) = ofBytesLE bs := by
  induction bs with
  | nil =>
    rw [List.nil_append]
    induction k with
    | zero => rfl
    | succ k ih =>
      have htail : ofBytesLE (List.replicate k 0) = 0 := ih
      simp [List.replicate_succ, ofBytesLE, htail]
  | cons b bs ih => rw [List.cons_append, ofBytesLE, ih, ofBytesLE]

/-- A number knows its bytes. -/
theorem ofBytesLE_inj {bs bs' : List UInt8} (hlen : bs.length = bs'.length)
    (h : ofBytesLE bs = ofBytesLE bs') : bs = bs' := by
  induction bs generalizing bs' with
  | nil => exact (List.length_eq_zero_iff.mp hlen.symm).symm
  | cons b bs ih =>
    cases bs' with
    | nil => simp at hlen
    | cons b' bs' =>
      have hb := b.toNat_lt
      have hb' := b'.toNat_lt
      simp only [ofBytesLE] at h
      have hhead : b = b' := UInt8.toNat_inj.mp (by omega)
      rw [hhead, ih (by simpa using hlen) (by omega)]

theorem ofBytesLE_lt (bs : List UInt8) : ofBytesLE bs < 256 ^ bs.length := by
  induction bs with
  | nil => simp [ofBytesLE]
  | cons b bs ih =>
    have hb := b.toNat_lt
    rw [ofBytesLE, List.length_cons, Nat.pow_succ']
    omega

theorem word64_read_inj (bs bs' : List UInt8) (hlen : bs.length = 8) (hlen' : bs'.length = 8)
    (h : word64.read bs = word64.read bs') : bs = bs' := by
  have hlt := ofBytesLE_lt bs
  have hlt' := ofBytesLE_lt bs'
  rw [hlen] at hlt
  rw [hlen'] at hlt'
  apply ofBytesLE_inj (hlen.trans hlen'.symm)
  have hnat := congrArg UInt64.toNat h
  simp only [word64, UInt64.toNat_ofNat'] at hnat
  omega

theorem readInto_word32_zero :
    (word32.readInto 0 (.behind n bytes)).1 = word32.field n bytes := by
  refine readInto_behind_zero (by decide) (fun bs k ↦ ?_) (word32_restores 0)
  simp only [word32, ofBytesLE_append_zeros]

theorem readInto_int64_zero :
    (int64.readInto 0 (.behind n bytes)).1 = int64.field n bytes := by
  refine readInto_behind_zero (by decide) (fun bs k ↦ ?_) (int64_restores (by decide) (by decide))
  simp only [int64, ofBytesLE_append_zeros]

end Offset

/-! ### Members of a record -/

section Record

variable {α β : Type u} {l : Layout α} {m : Layout β}

/-- Bytes that carry nothing. -/
def padding (k : Nat) : Layout PUnit.{u + 1} where
  size := k
  write _ := List.replicate k 0
  read _ := ⟨⟩
  length_write _ := List.length_replicate

theorem padding_restores (k : Nat) : (padding k).Restores ⟨⟩ := rfl

/-- One value behind the other. -/
def pair (l : Layout α) (m : Layout β) : Layout (α × β) where
  size := l.size + m.size
  write p := l.write p.1 ++ m.write p.2
  read bs := (l.read (bs.take l.size), m.read (bs.drop l.size))
  length_write p := by rw [List.length_append, l.length_write, m.length_write]

theorem pair_restores {a : α} {b : β} (ha : l.Restores a) (hb : m.Restores b) :
    (l.pair m).Restores (a, b) := by
  unfold Restores pair
  simp only
  rw [← l.length_write a, List.take_left, List.drop_left, ha, hb]

/-- Values stored as other values. -/
def via (m : Layout β) (f : α → β) (g : β → α) : Layout α where
  size := m.size
  write a := m.write (f a)
  read bs := g (m.read bs)
  length_write a := m.length_write (f a)

theorem via_restores {f : α → β} {g : β → α} {a : α} (h : m.Restores (f a)) (hg : g (f a) = a) :
    (m.via f g).Restores a := by
  unfold Restores via
  simp only
  rw [h, hg]

end Record

end Layout
