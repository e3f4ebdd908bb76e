import LobEngine.Engine.MatchingEngine
import LobEngine.Lib.RawBytes

/-!
# Snapshots

`src/snapshot/snapshot.hpp`, `src/snapshot/snapshot.cpp`. A snapshot file is the list of its
bytes. How an `Order` lies in memory is up to the compiler, so its layout is a parameter. The
order of the bytes of a word does not matter: both members use the same one.
-/

namespace LobEngine

open PriceLevelOps

/-- What `load` leaves in its reference parameters, and what it returns. -/
structure Loaded (L : Type) where
  good : Bool
  book : OrderBook L
  pendingStops : List Order
  sequence : UInt64

namespace SnapshotManager

/-- `SnapshotManager::kMagic`; `src/snapshot/snapshot.hpp:21`. -/
def magic : UInt32 := 0x4C4F4201

variable {L : Type} [PriceLevelOps L]

/-- The orders that `write_orders_from_side` writes; `src/snapshot/snapshot.cpp:39–50`. -/
def ordersFromSide (b : OrderBook L) (side : Side) : List Order :=
  (b.levels side).toList.flatMap fun entry ↦ (orderIds entry.2).filterMap b.findOrder

/-- The orders that `save` writes; `src/snapshot/snapshot.cpp:51–52`. -/
def savedOrders (b : OrderBook L) : List Order :=
  ordersFromSide b .buy ++ ordersFromSide b .sell

/-- The file that `SnapshotManager::save` leaves when every write succeeds;
`src/snapshot/snapshot.cpp:8–62`. -/
def save (layout : Layout Order) (b : OrderBook L) (pendingStops : List Order)
    (sequence : UInt64) : List UInt8 :=
  Layout.word32.write magic ++ (Layout.word64.write sequence ++
    (Layout.int64.write b.lastTradePrice ++
      (Layout.word32.write (UInt32.ofNat b.orderCount) ++
        ((savedOrders b).flatMap layout.write ++
          (Layout.word32.write (UInt32.ofNat pendingStops.length) ++
            pendingStops.flatMap layout.write)))))

/-- Read `count` orders, each over a default one; `src/snapshot/snapshot.cpp:82–86,91–95`. -/
def readOrders (layout : Layout Order) : Nat → InStream → List Order × InStream
  | 0, s => ([], s)
  | count + 1, s =>
    let (o, s) := layout.readInto {} s
    let (os, s) := readOrders layout count s
    (o :: os, s)

/-- `SnapshotManager::load` of a file, or of none; `src/snapshot/snapshot.cpp:64–98`. -/
def load (layout : Layout Order) (file : Option (List UInt8)) (book : OrderBook L)
    (pendingStops : List Order) (sequence : UInt64) : Loaded L :=
  match file with
  | none => ⟨false, book, pendingStops, sequence⟩
  | some bytes =>
    let (found, s) := Layout.word32.readInto 0 ⟨bytes, true⟩
    if found ≠ magic then ⟨false, book, pendingStops, sequence⟩
    else
      let (sequence, s) := Layout.word64.readInto sequence s
      let (ltp, s) := Layout.int64.readInto 0 s
      let (orderCount, s) := Layout.word32.readInto 0 s
      let (orders, s) := readOrders layout orderCount.toNat s
      let (stopCount, s) := Layout.word32.readInto 0 s
      let (stops, s) := readOrders layout stopCount.toNat s
      ⟨s.good, orders.foldl OrderBook.insertOrder { book with lastTradePrice := ltp }, stops,
        sequence⟩

/-- A new engine that takes over a snapshot, as `lob_replay` does. The sequence number that was
loaded is only printed; `src/tools/replay.cpp:44–57`. -/
def resume (layout : Layout Order) (file : Option (List UInt8)) :
    Option (Engine (OrderBook L)) :=
  let engine : Engine (OrderBook L) := Engine.init
  let loaded := load layout file engine.book [] 0
  if loaded.good then some { engine with book := loaded.book, pendingStops := loaded.pendingStops }
  else none

/-! ### Reading back -/

/-- Everything that `save` writes reads back as it was written. -/
structure Restores (layout : Layout Order) (b : OrderBook L) (pendingStops : List Order) : Prop
    where
  orders : ∀ o ∈ b.storedOrders, layout.Restores o
  stops : ∀ o ∈ pendingStops, layout.Restores o
  price : Layout.int64.Restores b.lastTradePrice

instance (layout : Layout Order) (b : OrderBook L) (pendingStops : List Order) :
    Decidable (Restores layout b pendingStops) :=
  decidable_of_iff ((∀ o ∈ b.storedOrders, layout.Restores o) ∧
    (∀ o ∈ pendingStops, layout.Restores o) ∧ Layout.int64.Restores b.lastTradePrice)
    ⟨fun h ↦ ⟨h.1, h.2.1, h.2.2⟩, fun h ↦ ⟨h.orders, h.stops, h.price⟩⟩

/-- Orders that were written one after the other are read back. -/
private theorem readOrders_write {layout : Layout Order} {os : List Order}
    (h : ∀ o ∈ os, layout.Restores o) (rest : List UInt8) :
    readOrders layout os.length ⟨os.flatMap layout.write ++ rest, true⟩ = (os, ⟨rest, true⟩) := by
  induction os with
  | nil => rfl
  | cons o os ih =>
    have ho := h o List.mem_cons_self
    have hos := ih fun x hx ↦ h x (List.mem_cons_of_mem o hx)
    rw [List.flatMap_cons, List.append_assoc, List.length_cons, readOrders,
      Layout.readInto_write ho]
    simp only [hos]

private theorem restores_savedOrders {layout : Layout Order} {b : OrderBook L} {stops : List Order}
    (h : Restores layout b stops) : ∀ o ∈ savedOrders b, layout.Restores o := by
  have hside (side : Side) : ∀ o ∈ ordersFromSide b side, layout.Restores o := by
    intro o ho
    obtain ⟨entry, -, ho⟩ := List.mem_flatMap.mp ho
    obtain ⟨id, -, hf⟩ := List.mem_filterMap.mp ho
    exact h.orders o (OrderBook.mem_storedOrders_of_find hf)
  intro o ho
  rcases List.mem_append.mp ho with ho | ho
  · exact hside .buy o ho
  · exact hside .sell o ho

/-- Where `save` writes as many orders as it announces, `load` puts them back in that order. -/
theorem load_save {layout : Layout Order} {b : OrderBook L} {stops : List Order}
    (sequence : UInt64) (hcount : (savedOrders b).length = b.orderCount)
    (hb : b.orderCount < 2 ^ 32) (hs : stops.length < 2 ^ 32)
    (h : Restores layout b stops) (book : OrderBook L) (stops' : List Order)
    (sequence' : UInt64) :
    load layout (some (save layout b stops sequence)) book stops' sequence' =
      ⟨true, (savedOrders b).foldl OrderBook.insertOrder
        { book with lastTradePrice := b.lastTradePrice }, stops, sequence⟩ := by
  have hbooked : (UInt32.ofNat b.orderCount).toNat = (savedOrders b).length := by
    rw [UInt32.toNat_ofNat', Nat.mod_eq_of_lt hb, hcount]
  have hstops : (UInt32.ofNat stops.length).toNat = stops.length := by
    rw [UInt32.toNat_ofNat', Nat.mod_eq_of_lt hs]
  have hlast := readOrders_write h.stops []
  rw [List.append_nil] at hlast
  simp only [load, save, Layout.readInto_write (Layout.word32_restores _),
    Layout.readInto_write (Layout.word64_restores _), Layout.readInto_write h.price, hbooked,
    readOrders_write (restores_savedOrders h), hstops, hlast, ne_eq, not_true_eq_false,
    ↓reduceIte]

end SnapshotManager

end LobEngine
