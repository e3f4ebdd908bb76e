import LobEngine.Snapshot.SnapshotManager

/-!
# What a snapshot file says

The fields of a snapshot lie at fixed offsets, and the records behind the counts that announce
them. `load` reads field by field from a stream; here its reads are the fields at their offsets,
in a file of any length.
-/

namespace LobEngine

namespace SnapshotFile

open Layout

/-- Records one behind the other, the first one at an offset. -/
def records (layout : Layout Order) : Nat → Nat → List UInt8 → List Order
  | _, 0, _ => []
  | n, count + 1, bytes => layout.field n bytes :: records layout (n + layout.size) count bytes

/-- `order_count`. -/
def orderCount (bytes : List UInt8) : Nat := (word32.field 20 bytes).toNat

/-- Where the stop orders are announced. -/
def stopsAt (layout : Layout Order) (bytes : List UInt8) : Nat :=
  24 + orderCount bytes * layout.size

/-- `stop_count`. -/
def stopCount (layout : Layout Order) (bytes : List UInt8) : Nat :=
  (word32.field (stopsAt layout bytes) bytes).toNat

/-- The length that the counts ask for. -/
def announcedLength (layout : Layout Order) (bytes : List UInt8) : Nat :=
  stopsAt layout bytes + 4 + stopCount layout bytes * layout.size

/-- The file starts with `kMagic`. -/
def HasMagic (bytes : List UInt8) : Prop := word32.field 0 bytes = SnapshotManager.magic

/-- Nothing that the counts announce is cut off. -/
def Whole (layout : Layout Order) (bytes : List UInt8) : Prop :=
  announcedLength layout bytes ≤ bytes.length

/-- The sequence number. -/
def sequence (bytes : List UInt8) : UInt64 := word64.field 4 bytes

/-- The last trade price, zeros standing for what is cut off. -/
def lastTradePrice (bytes : List UInt8) : Price := int64.field 12 bytes

/-- The orders, in file order. -/
def orders (layout : Layout Order) (bytes : List UInt8) : List Order :=
  records layout 24 (orderCount bytes) bytes

/-- The stop orders, in file order. -/
def stops (layout : Layout Order) (bytes : List UInt8) : List Order :=
  records layout (stopsAt layout bytes + 4) (stopCount layout bytes) bytes

/-- The book that holds the orders and the last price of the file, and nothing else. -/
def book {L : Type} [PriceLevelOps L] (layout : Layout Order) (bytes : List UInt8) : OrderBook L :=
  (orders layout bytes).foldl OrderBook.insertOrder
    { OrderBook.empty with lastTradePrice := lastTradePrice bytes }

instance (bytes : List UInt8) : Decidable (HasMagic bytes) := inferInstanceAs (Decidable (_ = _))

instance (layout : Layout Order) (bytes : List UInt8) : Decidable (Whole layout bytes) :=
  inferInstanceAs (Decidable (_ ≤ _))

end SnapshotFile

namespace SnapshotManager

open Layout SnapshotFile

variable {L : Type} [PriceLevelOps L] {layout : Layout Order} {bytes : List UInt8}

/-- The records that the stream serves from an offset on, and default orders for the rest. -/
def readOrdersAt (layout : Layout Order) (n count : Nat) (bytes : List UInt8) : List Order :=
  (readOrders layout count (.behind n bytes)).1

theorem readOrders_length (layout : Layout Order) (count : Nat) (s : InStream) :
    (readOrders layout count s).1.length = count := by
  induction count generalizing s with
  | zero => rfl
  | succ count ih =>
    rw [readOrders]
    simp only [List.length_cons]
    rw [ih]

private theorem readOrders_behind_snd (layout : Layout Order) (count n : Nat) (bytes : List UInt8) :
    (readOrders layout count (.behind n bytes)).2 =
      .behind (n + count * layout.size) bytes := by
  induction count generalizing n with
  | zero => rw [readOrders, Nat.zero_mul, Nat.add_zero]
  | succ count ih =>
    rw [readOrders]
    simp only
    rw [readInto_behind_snd, ih, Nat.succ_mul]
    congr 1
    omega

/-- Records that are there are read. -/
private theorem readOrdersAt_eq {n count : Nat} (h : n + count * layout.size ≤ bytes.length) :
    readOrdersAt layout n count bytes = records layout n count bytes := by
  unfold readOrdersAt
  induction count generalizing n with
  | zero => rfl
  | succ count ih =>
    rw [Nat.succ_mul] at h
    have hle : n + layout.size ≤ bytes.length := by omega
    have hhead : (layout.readInto {} (.behind n bytes)).1 = layout.field n bytes :=
      readInto_behind_fst {} hle
    rw [readOrders, records]
    simp only
    rw [hhead, readInto_behind_snd, ih (by omega)]

/-- `load` in terms of the fields of the file. -/
theorem load_eq (layout : Layout Order) (bytes : List UInt8) (b : OrderBook L)
    (pendingStops : List Order) (sequence : UInt64) :
    load layout (some bytes) b pendingStops sequence =
      if HasMagic bytes then
        ⟨decide (Whole layout bytes),
          (readOrdersAt layout 24 (orderCount bytes) bytes).foldl OrderBook.insertOrder
            { b with lastTradePrice := SnapshotFile.lastTradePrice bytes },
          readOrdersAt layout (stopsAt layout bytes + 4) (stopCount layout bytes) bytes,
          (word64.readInto sequence (.behind 4 bytes)).1⟩
      else ⟨false, b, pendingStops, sequence⟩ := by
  have hstart : (⟨bytes, true⟩ : InStream) = .behind 0 bytes := by
    simp [InStream.behind]
  have h4 : 0 + word32.size = 4 := rfl
  have h12 : 4 + word64.size = 12 := rfl
  have h20 : 12 + int64.size = 20 := rfl
  have h24 : 20 + word32.size = 24 := rfl
  have hcount : (word32.field 20 bytes).toNat = orderCount bytes := rfl
  have hstops : 24 + orderCount bytes * layout.size = stopsAt layout bytes := rfl
  have hstopCount :
      (word32.field (stopsAt layout bytes) bytes).toNat = stopCount layout bytes := rfl
  simp only [load, hstart, readInto_behind_snd, readInto_word32_zero, readInto_int64_zero, h4,
    h12, h20, h24, hcount, readOrders_behind_snd, hstops, hstopCount]
  by_cases hm : HasMagic bytes
  · have hfound : ¬word32.field 0 bytes ≠ magic := not_not.mpr hm
    rw [if_neg hfound, if_pos hm]
    rfl
  · have hfound : word32.field 0 bytes ≠ magic := hm
    rw [if_pos hfound, if_neg hm]

/-- A whole file is read as it stands, over whatever was there. -/
theorem load_whole (hm : HasMagic bytes) (hw : Whole layout bytes) (b : OrderBook L)
    (pendingStops : List Order) (sequence : UInt64) :
    load layout (some bytes) b pendingStops sequence =
      ⟨true, (orders layout bytes).foldl OrderBook.insertOrder
          { b with lastTradePrice := SnapshotFile.lastTradePrice bytes },
        stops layout bytes, SnapshotFile.sequence bytes⟩ := by
  have hlen : stopsAt layout bytes + 4 + stopCount layout bytes * layout.size ≤ bytes.length := hw
  have hat : stopsAt layout bytes = 24 + orderCount bytes * layout.size := rfl
  have horders : readOrdersAt layout 24 (orderCount bytes) bytes = orders layout bytes :=
    readOrdersAt_eq (by omega)
  have hstops : readOrdersAt layout (stopsAt layout bytes + 4) (stopCount layout bytes) bytes =
      stops layout bytes := readOrdersAt_eq (by omega)
  have hsequence : (word64.readInto sequence (.behind 4 bytes)).1 = SnapshotFile.sequence bytes :=
    readInto_behind_fst sequence (by change 4 + 8 ≤ _; omega)
  rw [load_eq, if_pos hm, horders, hstops, hsequence, decide_eq_true hw]

end SnapshotManager

end LobEngine
