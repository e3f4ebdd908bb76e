import LobEngine.Core.Order
import LobEngine.Lib.LazyQueue

/-!
# Price levels

`src/book/price_level.hpp`, `src/book/price_level.cpp`. `PriceLevel` is the current
level, whose `remove` only marks an identifier. `EagerPriceLevel` is the version before
that optimisation, `docs/performance.md:104–113`, whose `remove` erases the queue entry.
`LawfulPriceLevel` states what the book needs of either: under `Valid` the level is
the list `orderIds`, and `Holds` tells which identifiers still own an entry, dead or
alive.
-/

namespace LobEngine

/-- The members of a price level. `front` and `empty` drain the queue in place, so they
return the level they leave behind; `none` from `front` and `popFront` stands for the
access to an empty deque. -/
class PriceLevelOps (L : Type) where
  ofPrice : Price → L
  price : L → Price
  totalVolume : L → Quantity
  pushBack : L → OrderId → Quantity → L
  popFront : L → Quantity → Option L
  reduceFrontVolume : L → Quantity → L
  remove : L → OrderId → Quantity → L
  front : L → Option OrderId × L
  empty : L → Bool × L
  size : L → UInt64
  orderIds : L → List OrderId

/-- `(total >= q) ? total - q : 0`; `src/book/price_level.hpp:22,26`. -/
def clampedSub (total q : Quantity) : Quantity := if total ≥ q then total - q else 0

/-- `class PriceLevel`; `src/book/price_level.hpp:10–73`. -/
structure PriceLevel extends LazyQueue OrderId where
  price : Price
  totalVolume : Quantity

namespace PriceLevel

/-- `PriceLevel::PriceLevel`; `src/book/price_level.hpp:12`. -/
def ofPrice (price : Price) : PriceLevel := ⟨⟨[], ∅⟩, price, 0⟩

/-- `PriceLevel::drain_cancelled`; `src/book/price_level.hpp:67–72`. -/
def drainCancelled (l : PriceLevel) : PriceLevel := { l with toLazyQueue := l.toLazyQueue.drain }

/-- `PriceLevel::push_back`; `src/book/price_level.hpp:14–17`. -/
def pushBack (l : PriceLevel) (id : OrderId) (visibleQty : Quantity) : PriceLevel :=
  { l with toLazyQueue := l.toLazyQueue.push id, totalVolume := l.totalVolume + visibleQty }

/-- `PriceLevel::pop_front`; `src/book/price_level.hpp:19–23`. -/
def popFront (l : PriceLevel) (filledQty : Quantity) : Option PriceLevel :=
  match l.drainCancelled with
  | ⟨⟨[], _⟩, _, _⟩ => none
  | ⟨⟨_ :: rest, dead⟩, price, total⟩ => some ⟨⟨rest, dead⟩, price, clampedSub total filledQty⟩

/-- `PriceLevel::reduce_front_volume`; `src/book/price_level.hpp:25–27`. -/
def reduceFrontVolume (l : PriceLevel) (qty : Quantity) : PriceLevel :=
  { l with totalVolume := clampedSub l.totalVolume qty }

/-- `PriceLevel::remove`; `src/book/price_level.cpp:5–10`. -/
def remove (l : PriceLevel) (id : OrderId) (visibleQty : Quantity) : PriceLevel :=
  { l with toLazyQueue := l.toLazyQueue.mark id
           totalVolume := clampedSub l.totalVolume visibleQty }

/-- `PriceLevel::front`; `src/book/price_level.hpp:32–35`. -/
def front (l : PriceLevel) : Option OrderId × PriceLevel :=
  (l.drainCancelled.queue.head?, l.drainCancelled)

/-- `PriceLevel::empty`; `src/book/price_level.hpp:37–40`. -/
def empty (l : PriceLevel) : Bool × PriceLevel :=
  (l.drainCancelled.queue.isEmpty, l.drainCancelled)

/-- `PriceLevel::size`; `src/book/price_level.hpp:45`. -/
def size (l : PriceLevel) : UInt64 :=
  UInt64.ofNat l.queue.length - UInt64.ofNat l.cancelled.card

/-- `PriceLevel::order_ids`; `src/book/price_level.hpp:47–55`. -/
def orderIds (l : PriceLevel) : List OrderId := l.toLazyQueue.live

instance : PriceLevelOps PriceLevel where
  ofPrice := ofPrice
  price := price
  totalVolume := totalVolume
  pushBack := pushBack
  popFront := popFront
  reduceFrontVolume := reduceFrontVolume
  remove := remove
  front := front
  empty := empty
  size := size
  orderIds := orderIds

end PriceLevel

/-- The level before lazy deletion: no set of cancelled identifiers. -/
structure EagerPriceLevel where
  queue : List OrderId
  price : Price
  totalVolume : Quantity

namespace EagerPriceLevel

/-- The constructor, as in the current level. -/
def ofPrice (price : Price) : EagerPriceLevel := ⟨[], price, 0⟩

/-- `push_back`, as in the current level. -/
def pushBack (l : EagerPriceLevel) (id : OrderId) (visibleQty : Quantity) : EagerPriceLevel :=
  { l with queue := l.queue ++ [id], totalVolume := l.totalVolume + visibleQty }

/-- `pop_front` on a queue that holds no dead entries. -/
def popFront (l : EagerPriceLevel) (filledQty : Quantity) : Option EagerPriceLevel :=
  match l with
  | ⟨[], _, _⟩ => none
  | ⟨_ :: rest, price, total⟩ => some ⟨rest, price, clampedSub total filledQty⟩

/-- `reduce_front_volume`, as in the current level. -/
def reduceFrontVolume (l : EagerPriceLevel) (qty : Quantity) : EagerPriceLevel :=
  { l with totalVolume := clampedSub l.totalVolume qty }

/-- `remove` by `std::find` and `std::deque::erase`; `docs/performance.md:106–112`. -/
def remove (l : EagerPriceLevel) (id : OrderId) (visibleQty : Quantity) : EagerPriceLevel :=
  if id ∈ l.queue then
    { l with queue := l.queue.erase id, totalVolume := l.totalVolume - visibleQty }
  else l

instance : PriceLevelOps EagerPriceLevel where
  ofPrice := ofPrice
  price := price
  totalVolume := totalVolume
  pushBack := pushBack
  popFront := popFront
  reduceFrontVolume := reduceFrontVolume
  remove := remove
  front l := (l.queue.head?, l)
  empty l := (l.queue.isEmpty, l)
  size l := UInt64.ofNat l.queue.length
  orderIds := queue

end EagerPriceLevel

open PriceLevelOps

/-- A level that behaves as the list of its live identifiers. -/
class LawfulPriceLevel (L : Type) [PriceLevelOps L] where
  Valid : L → Prop
  Holds : L → OrderId → Prop
  holds_of_mem {l : L} {id : OrderId} : Valid l → id ∈ orderIds l → Holds l id
  nodup {l : L} : Valid l → (orderIds l).Nodup
  size_eq {l : L} : Valid l → size l = UInt64.ofNat (orderIds l).length
  ofPrice_valid (p : Price) : Valid (ofPrice p : L)
  ofPrice_price (p : Price) : price (ofPrice p : L) = p
  ofPrice_orderIds (p : Price) : orderIds (ofPrice p : L) = []
  ofPrice_holds (p : Price) (id : OrderId) : ¬Holds (ofPrice p : L) id
  pushBack_valid {l : L} {id : OrderId} (q : Quantity) :
    Valid l → ¬Holds l id → Valid (pushBack l id q)
  pushBack_price (l : L) (id : OrderId) (q : Quantity) : price (pushBack l id q) = price l
  pushBack_orderIds {l : L} {id : OrderId} (q : Quantity) :
    Valid l → ¬Holds l id → orderIds (pushBack l id q) = orderIds l ++ [id]
  pushBack_holds {l : L} {id x : OrderId} {q : Quantity} :
    Holds (pushBack l id q) x → Holds l x ∨ x = id
  popFront_price {l l' : L} {q : Quantity} : popFront l q = some l' → price l' = price l
  popFront_valid {l : L} {id : OrderId} {rest : List OrderId} (q : Quantity) :
    Valid l → orderIds l = id :: rest → ∃ l', popFront l q = some l' ∧ Valid l' ∧
      orderIds l' = rest ∧ ¬Holds l' id ∧ ∀ x, Holds l' x → Holds l x
  reduce_valid {l : L} (q : Quantity) : Valid l → Valid (reduceFrontVolume l q)
  reduce_price (l : L) (q : Quantity) : price (reduceFrontVolume l q) = price l
  reduce_orderIds (l : L) (q : Quantity) : orderIds (reduceFrontVolume l q) = orderIds l
  reduce_holds {l : L} {q : Quantity} {x : OrderId} : Holds (reduceFrontVolume l q) x → Holds l x
  remove_valid {l : L} {id : OrderId} (q : Quantity) :
    Valid l → id ∈ orderIds l → Valid (remove l id q)
  remove_price (l : L) (id : OrderId) (q : Quantity) : price (remove l id q) = price l
  remove_orderIds {l : L} {id : OrderId} (q : Quantity) :
    Valid l → id ∈ orderIds l → orderIds (remove l id q) = (orderIds l).erase id
  remove_holds {l : L} {id x : OrderId} {q : Quantity} : Holds (remove l id q) x → Holds l x
  front_fst {l : L} : Valid l → (front l).1 = (orderIds l).head?
  front_valid {l : L} : Valid l → Valid (front l).2
  front_price (l : L) : price (front l).2 = price l
  front_orderIds {l : L} : Valid l → orderIds (front l).2 = orderIds l
  front_holds {l : L} {x : OrderId} : Valid l → Holds (front l).2 x → Holds l x
  empty_fst {l : L} : Valid l → (empty l).1 = (orderIds l).isEmpty
  empty_valid {l : L} : Valid l → Valid (empty l).2
  empty_price (l : L) : price (empty l).2 = price l
  empty_orderIds {l : L} : Valid l → orderIds (empty l).2 = orderIds l
  empty_holds {l : L} {x : OrderId} : Valid l → Holds (empty l).2 x → Holds l x

namespace PriceLevel

private theorem popFront_of_queue {l : PriceLevel} {id : OrderId} {rest : List OrderId}
    (q : Quantity) (h : l.drain.queue = id :: rest) : l.popFront q =
      some ⟨⟨rest, l.drain.cancelled⟩, l.price, clampedSub l.totalVolume q⟩ := by
  rcases l with ⟨queue, price, total⟩
  simp only at h
  cases hd : queue.drain with
  | mk entries dead =>
    rw [hd] at h
    simp only at h
    simp only [popFront, drainCancelled, hd, h]

private theorem popFront_keeps_price {l l' : PriceLevel} {q : Quantity}
    (h : l.popFront q = some l') : l'.price = l.price := by
  rcases l with ⟨queue, price, total⟩
  cases hd : queue.drain with
  | mk entries dead =>
    simp only [popFront, drainCancelled, hd] at h
    cases entries with
    | nil => simp at h
    | cons x xs =>
      simp only [Option.some.injEq] at h
      rw [← h]

private theorem popFront_live {l : PriceLevel} {id : OrderId} {rest : List OrderId}
    (q : Quantity) (hv : l.Valid) (h : l.live = id :: rest) :
    ∃ l', l.popFront q = some l' ∧ l'.Valid ∧ l'.live = rest ∧ id ∉ l'.queue ∧
      ∀ x ∈ l'.queue, x ∈ l.queue := by
  obtain ⟨ys, hq, hid, hrest⟩ := LazyQueue.drain_queue_eq hv h
  have hdv := LazyQueue.drain_valid hv
  have hnodup := hdv.nodup
  rw [hq] at hnodup
  have hys := List.nodup_cons.mp hnodup
  refine ⟨_, popFront_of_queue q hq, ⟨hys.2, ?_⟩, hrest, hys.1, ?_⟩
  · intro x hx
    have hmem := hdv.marks x hx
    rw [hq] at hmem
    rcases List.mem_cons.mp hmem with rfl | hmem
    · exact absurd hx hid
    · exact hmem
  · intro x hx
    apply LazyQueue.mem_of_mem_drain hv
    rw [hq]
    exact List.mem_cons_of_mem id hx

/-- The lazily deleting level, valid when no identifier has two entries and every mark
has an entry. -/
instance : LawfulPriceLevel PriceLevel where
  Valid l := l.Valid
  Holds l id := id ∈ l.queue
  holds_of_mem _ h := (LazyQueue.mem_live.mp h).1
  nodup h := LazyQueue.live_nodup h
  size_eq {l} h := by
    have hc := LazyQueue.length_live_add_card h
    change UInt64.ofNat l.queue.length - UInt64.ofNat l.cancelled.card =
      UInt64.ofNat l.live.length
    rw [← hc, UInt64.ofNat_add]
    exact UInt64.add_sub_cancel _ _
  ofPrice_valid _ := ⟨List.nodup_nil, by simp [PriceLevelOps.ofPrice, ofPrice]⟩
  ofPrice_price _ := rfl
  ofPrice_orderIds _ := rfl
  ofPrice_holds _ _ := List.not_mem_nil
  pushBack_valid _ h hid := LazyQueue.push_valid h hid
  pushBack_price _ _ _ := rfl
  pushBack_orderIds _ h hid := LazyQueue.live_push h hid
  pushBack_holds h := by simpa using List.mem_append.mp h
  popFront_price h := popFront_keeps_price h
  popFront_valid q h hids := popFront_live q h hids
  reduce_valid _ h := h
  reduce_price _ _ := rfl
  reduce_orderIds _ _ := rfl
  reduce_holds h := h
  remove_valid _ h hid := LazyQueue.mark_valid h (LazyQueue.mem_live.mp hid).1
  remove_price _ _ _ := rfl
  remove_orderIds {_ id} _ h _ := LazyQueue.live_mark h id
  remove_holds h := h
  front_fst h := LazyQueue.head?_drain h
  front_valid h := LazyQueue.drain_valid h
  front_price _ := rfl
  front_orderIds h := LazyQueue.live_drain h
  front_holds h hx := LazyQueue.mem_of_mem_drain h hx
  empty_fst {l} h := by
    have hh := LazyQueue.head?_drain h
    change l.drain.queue.isEmpty = l.live.isEmpty
    cases hq : l.drain.queue <;> cases hl : l.live <;> simp_all
  empty_valid h := LazyQueue.drain_valid h
  empty_price _ := rfl
  empty_orderIds h := LazyQueue.live_drain h
  empty_holds h hx := LazyQueue.mem_of_mem_drain h hx

end PriceLevel

namespace EagerPriceLevel

/-- The eager level, valid when no identifier has two entries. -/
instance : LawfulPriceLevel EagerPriceLevel where
  Valid l := l.queue.Nodup
  Holds l id := id ∈ l.queue
  holds_of_mem _ h := h
  nodup h := h
  size_eq _ := rfl
  ofPrice_valid _ := List.nodup_nil
  ofPrice_price _ := rfl
  ofPrice_orderIds _ := rfl
  ofPrice_holds _ _ := List.not_mem_nil
  pushBack_valid _ h hid := by
    refine List.nodup_append.mpr ⟨h, List.nodup_singleton _, ?_⟩
    intro y hy z hz he
    rw [List.mem_singleton.mp hz] at he
    exact hid (he ▸ hy)
  pushBack_price _ _ _ := rfl
  pushBack_orderIds _ _ _ := rfl
  pushBack_holds h := by simpa using List.mem_append.mp h
  popFront_price {l l' q} h := by
    rcases l with ⟨queue, price, total⟩
    cases queue with
    | nil => simp [PriceLevelOps.popFront, popFront] at h
    | cons x xs =>
      simp only [PriceLevelOps.popFront, popFront, Option.some.injEq] at h
      rw [← h]
      rfl
  popFront_valid {l id rest} q h hids := by
    rcases l with ⟨queue, price, total⟩
    obtain rfl : queue = id :: rest := hids
    have hn := List.nodup_cons.mp h
    exact ⟨_, rfl, hn.2, rfl, hn.1, fun x hx ↦ List.mem_cons_of_mem id hx⟩
  reduce_valid _ h := h
  reduce_price _ _ := rfl
  reduce_orderIds _ _ := rfl
  reduce_holds h := h
  remove_valid {l id} q h hid := by
    have hid' : id ∈ l.queue := hid
    simp only [PriceLevelOps.remove, remove, hid', ↓reduceIte]
    exact h.erase id
  remove_price l id q := by
    simp only [PriceLevelOps.remove, remove]
    split <;> rfl
  remove_orderIds {l id} q _ hid := by
    have hid' : id ∈ l.queue := hid
    simp only [PriceLevelOps.remove, remove, hid', ↓reduceIte]
    rfl
  remove_holds {l id x q} h := by
    simp only [PriceLevelOps.remove, remove] at h
    split at h
    · exact List.mem_of_mem_erase h
    · exact h
  front_fst _ := rfl
  front_valid h := h
  front_price _ := rfl
  front_orderIds _ := rfl
  front_holds _ hx := hx
  empty_fst _ := rfl
  empty_valid h := h
  empty_price _ := rfl
  empty_orderIds _ := rfl
  empty_holds _ hx := hx

end EagerPriceLevel

end LobEngine
