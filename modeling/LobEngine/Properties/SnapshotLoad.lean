import LobEngine.Book.BookMorphism
import LobEngine.Snapshot.OrderLayout
import LobEngine.Snapshot.SnapshotFile

/-!
# What a load leaves behind

`load` writes into its parameters while it reads and looks at the stream at the end. A file that
is cut off has been written over them by then, as far as it goes. From a whole file the stops, the
sequence number and the last price are replaced, but the orders are put into the book that was
there.
-/

namespace LobEngine

open PriceLevelOps OrderBook SnapshotManager SnapshotFile

/-- `load` leaves its parameters as they were, or as the file says. -/
structure AllOrNothing (layout : Layout Order) (file : Option (List UInt8))
    (b : OrderBook PriceLevel) (pendingStops : List Order) (sequence : UInt64) : Prop where
  refused : (load layout file b pendingStops sequence).good = false →
    load layout file b pendingStops sequence = ⟨false, b, pendingStops, sequence⟩
  accepted : (load layout file b pendingStops sequence).good = true →
    ∃ bytes, file = some bytes ∧ load layout file b pendingStops sequence =
      ⟨true, SnapshotFile.book layout bytes, stops layout bytes, SnapshotFile.sequence bytes⟩

/-- The book has no order that the orders do not replace, and no level but blank ones under
them. -/
structure BlankFor (os : List Order) (b : OrderBook PriceLevel) : Prop where
  ids : ∀ id o, b.findOrder id = some o → id ∈ os.map Order.id
  levels : ∀ side p l, b.getLevel side p = some l →
    l = ofPrice p ∧ ∃ o ∈ os, o.side = side ∧ o.price = p

/-- What there is of a file that is cut off is what its parameters hold already. -/
structure CutHarmlessly (layout : Layout Order) (bytes : List UInt8) (b : OrderBook PriceLevel)
    (pendingStops : List Order) (sequence : UInt64) : Prop where
  orders : orderCount bytes = 0
  lastTradePrice : SnapshotFile.lastTradePrice bytes = b.lastTradePrice
  stops : readOrdersAt layout 28 (stopCount layout bytes) bytes = pendingStops
  sequence : (bytes.drop 4).take 8 <+: Layout.word64.write sequence

/-- The file is none that `load` reads on, or it is whole and meets a blank book, or it is cut off
where that does not show. -/
def LoadsCleanly (layout : Layout Order) (file : Option (List UInt8)) (b : OrderBook PriceLevel)
    (pendingStops : List Order) (sequence : UInt64) : Prop :=
  ∀ bytes, file = some bytes → HasMagic bytes →
    if Whole layout bytes then BlankFor (orders layout bytes) b
    else CutHarmlessly layout bytes b pendingStops sequence

/-! ### Inserting into a book that is not empty -/

section Inserted

variable {L : Type} [PriceLevelOps L]

/-- The orders that go to one place, in their order. -/
def ordersBoundFor (side : Side) (p : Price) (os : List Order) : List Order :=
  os.filter fun o ↦ o.side = side ∧ o.price = p

/-- A level with orders pushed behind what it holds. -/
def pushOrders (l : L) (os : List Order) : L :=
  os.foldl (fun l o ↦ pushBack l o.id o.visibleQty) l

theorem lastTradePrice_foldl_insertOrder (os : List Order) (b : OrderBook L) :
    (os.foldl insertOrder b).lastTradePrice = b.lastTradePrice := by
  induction os generalizing b with
  | nil => rfl
  | cons o os ih =>
    rw [List.foldl_cons, ih, insertOrder, lastTradePrice_setLevel]
    rfl

/-- Insertions keep what is stored under other identifiers. -/
private theorem findOrder_foldl_insertOrder {os : List Order} {id : OrderId}
    (h : id ∉ os.map Order.id) (b : OrderBook L) :
    (os.foldl insertOrder b).findOrder id = b.findOrder id := by
  induction os generalizing b with
  | nil => rfl
  | cons o os ih =>
    rw [List.map_cons, List.mem_cons, not_or] at h
    rw [List.foldl_cons, ih h.2, findOrder_insertOrder, if_neg (Ne.symm h.1)]

/-- Under an identifier that is inserted, nothing of the book before is left. -/
private theorem findOrder_foldl_insertOrder_congr {os : List Order} {id : OrderId}
    (h : id ∈ os.map Order.id) (b b' : OrderBook L) :
    (os.foldl insertOrder b).findOrder id = (os.foldl insertOrder b').findOrder id := by
  induction os generalizing b b' with
  | nil => exact absurd h (by simp)
  | cons o os ih =>
    rw [List.foldl_cons, List.foldl_cons]
    by_cases hos : id ∈ os.map Order.id
    · exact ih hos _ _
    · have ho : o.id = id := by
        rw [List.map_cons, List.mem_cons] at h
        exact (h.resolve_right hos).symm
      rw [findOrder_foldl_insertOrder hos, findOrder_foldl_insertOrder hos, findOrder_insertOrder,
        findOrder_insertOrder, if_pos ho, if_pos ho]

private theorem getLevel_insertOrder (b : OrderBook L) (o : Order) (side : Side) (p : Price) :
    (b.insertOrder o).getLevel side p = if o.side = side ∧ o.price = p then
      some (pushBack ((b.getLevel side p).getD (ofPrice p)) o.id o.visibleQty)
    else b.getLevel side p := by
  rw [insertOrder, getLevel_setLevel, getLevel_storeOrder, getLevel_storeOrder]
  split
  · next h => rw [h.1, h.2]
  · rfl

/-- Insertions push onto the levels that they find. -/
private theorem getLevel_foldl_insertOrder (os : List Order) (b : OrderBook L) (side : Side)
    (p : Price) : (os.foldl insertOrder b).getLevel side p = if ordersBoundFor side p os = [] then
      b.getLevel side p
    else some (pushOrders ((b.getLevel side p).getD (ofPrice p)) (ordersBoundFor side p os)) := by
  induction os generalizing b with
  | nil => rfl
  | cons o os ih =>
    rw [List.foldl_cons, ih, getLevel_insertOrder]
    by_cases ho : o.side = side ∧ o.price = p
    · have hcons : ordersBoundFor side p (o :: os) = o :: ordersBoundFor side p os :=
        List.filter_cons_of_pos (by simpa using ho)
      rw [hcons, if_pos ho, if_neg (List.cons_ne_nil _ _), Option.getD_some]
      by_cases hnil : ordersBoundFor side p os = []
      · rw [if_pos hnil, hnil]
        rfl
      · rw [if_neg hnil]
        rfl
    · have hcons : ordersBoundFor side p (o :: os) = ordersBoundFor side p os :=
        List.filter_cons_of_neg (by simpa using ho)
      rw [hcons, if_neg ho]

end Inserted

namespace PriceLevel

/-- What was pushed tells levels apart no better than they were before. -/
private theorem pushOrders_inj {l l' : PriceLevel} (os : List Order)
    (h : pushOrders l os = pushOrders l' os) : l = l' := by
  induction os generalizing l l' with
  | nil => exact h
  | cons o os ih =>
    have hpush : pushBack l o.id o.visibleQty = pushBack l' o.id o.visibleQty := ih h
    rcases l with ⟨⟨queue, dead⟩, price, total⟩
    rcases l' with ⟨⟨queue', dead'⟩, price', total'⟩
    simp only [pushBack, LazyQueue.push, PriceLevel.mk.injEq, LazyQueue.mk.injEq,
      List.append_cancel_right_eq, UInt64.add_left_inj] at hpush
    simp only [PriceLevel.mk.injEq, LazyQueue.mk.injEq]
    exact hpush

private theorem queue_pushOrders (l : PriceLevel) (os : List Order) :
    (pushOrders l os).queue = l.queue ++ os.map Order.id := by
  induction os generalizing l with
  | nil => exact (List.append_nil _).symm
  | cons o os ih =>
    have hstep : pushOrders l (o :: os) = pushOrders (pushBack l o.id o.visibleQty) os := rfl
    have hpush : (pushBack l o.id o.visibleQty).queue = l.queue ++ [o.id] := rfl
    rw [hstep, ih, hpush, List.map_cons, List.append_assoc]
    rfl

end PriceLevel

variable {layout : Layout Order} {bytes : List UInt8} {b : OrderBook PriceLevel}
  {pendingStops : List Order} {sequence : UInt64}

private theorem getLevel_priced (b : OrderBook PriceLevel) (p : Price) (side : Side) (q : Price) :
    ({ b with lastTradePrice := p } : OrderBook PriceLevel).getLevel side q =
      b.getLevel side q := by
  cases side <;> rfl

/-- Orders put into a book make the book of the orders alone exactly if the book is blank for
them. -/
private theorem foldl_insertOrder_eq_iff (os : List Order) (b : OrderBook PriceLevel) (p : Price) :
    os.foldl insertOrder { b with lastTradePrice := p } =
        os.foldl insertOrder { OrderBook.empty with lastTradePrice := p } ↔ BlankFor os b := by
  have hfind (b : OrderBook PriceLevel) (id : OrderId) :
      ({ b with lastTradePrice := p } : OrderBook PriceLevel).findOrder id = b.findOrder id := rfl
  have hnoLevel (side : Side) (q : Price) :
      ({ OrderBook.empty with lastTradePrice := p } : OrderBook PriceLevel).getLevel side q =
        none := by
    cases side <;> exact Std.ExtTreeMap.getElem?_empty
  have hnoOrder (id : OrderId) : (OrderBook.empty : OrderBook PriceLevel).findOrder id = none :=
    Std.ExtTreeMap.getElem?_empty
  constructor
  · intro h
    refine ⟨fun id o ho ↦ ?_, fun side q l hl ↦ ?_⟩
    · by_contra hid
      have hf := congrArg (OrderBook.findOrder · id) h
      simp only at hf
      rw [findOrder_foldl_insertOrder hid, findOrder_foldl_insertOrder hid, hfind, hfind, ho,
        hnoOrder] at hf
      exact absurd hf (by simp)
    · have hg := congrArg (OrderBook.getLevel · side q) h
      simp only at hg
      rw [getLevel_foldl_insertOrder, getLevel_foldl_insertOrder, getLevel_priced b, hnoLevel, hl,
        Option.getD_some, Option.getD_none] at hg
      by_cases hnil : ordersBoundFor side q os = []
      · rw [if_pos hnil, if_pos hnil] at hg
        exact absurd hg (by simp)
      · rw [if_neg hnil, if_neg hnil] at hg
        obtain ⟨o, ho⟩ := List.exists_mem_of_ne_nil _ hnil
        refine ⟨PriceLevel.pushOrders_inj _ (Option.some.inj hg), o, ?_⟩
        simpa [ordersBoundFor] using ho
  · intro h
    apply ext_levels
    · intro side
      apply Std.ExtTreeMap.ext_getElem?
      intro q
      change OrderBook.getLevel _ side q = OrderBook.getLevel _ side q
      rw [getLevel_foldl_insertOrder, getLevel_foldl_insertOrder, getLevel_priced b, hnoLevel,
        Option.getD_none]
      cases hl : b.getLevel side q with
      | none => rfl
      | some l =>
        obtain ⟨hblank, o, ho, hplace⟩ := h.levels side q l hl
        have hmem : o ∈ ordersBoundFor side q os := List.mem_filter.mpr ⟨ho, by simpa using hplace⟩
        have hne : ordersBoundFor side q os ≠ [] := List.ne_nil_of_mem hmem
        rw [if_neg hne, if_neg hne, hblank, Option.getD_some]
    · apply Std.ExtTreeMap.ext_getElem?
      intro id
      change OrderBook.findOrder _ id = OrderBook.findOrder _ id
      by_cases hid : id ∈ os.map Order.id
      · exact findOrder_foldl_insertOrder_congr hid _ _
      · rw [findOrder_foldl_insertOrder hid, findOrder_foldl_insertOrder hid, hfind, hfind,
          hnoOrder]
        cases hf : b.findOrder id with
        | none => rfl
        | some o => exact absurd (h.ids id o hf) hid
    · rw [lastTradePrice_foldl_insertOrder, lastTradePrice_foldl_insertOrder]

/-- No order can be put into a book without showing. -/
private theorem foldl_insertOrder_eq_self_iff (os : List Order) (b : OrderBook PriceLevel)
    (p : Price) :
    os.foldl insertOrder { b with lastTradePrice := p } = b ↔ os = [] ∧ p = b.lastTradePrice := by
  constructor
  · intro h
    have hlast := congrArg OrderBook.lastTradePrice h
    rw [lastTradePrice_foldl_insertOrder] at hlast
    refine ⟨?_, hlast⟩
    cases os with
    | nil => rfl
    | cons o os =>
      exfalso
      have hmem : o ∈ ordersBoundFor o.side o.price (o :: os) := by simp [ordersBoundFor]
      have hg := getLevel_foldl_insertOrder (o :: os) { b with lastTradePrice := p } o.side o.price
      rw [if_neg (List.ne_nil_of_mem hmem), getLevel_priced b, h] at hg
      cases hl : b.getLevel o.side o.price with
      | none =>
        rw [hl] at hg
        exact absurd hg (by simp)
      | some l =>
        rw [hl, Option.getD_some] at hg
        have hqueue := congrArg (fun l ↦ l.queue.length) (Option.some.inj hg)
        simp only [PriceLevel.queue_pushOrders, List.length_append, List.length_map] at hqueue
        have hpos := List.length_pos_of_mem hmem
        omega
  · rintro ⟨rfl, rfl⟩
    rfl

/-- A whole file is loaded cleanly into a blank book, and into no other. -/
private theorem allOrNothing_whole_iff (hm : HasMagic bytes) (hw : Whole layout bytes) :
    AllOrNothing layout (some bytes) b pendingStops sequence ↔
      BlankFor (orders layout bytes) b := by
  have hload := load_whole hm hw b pendingStops sequence
  rw [← foldl_insertOrder_eq_iff _ b (SnapshotFile.lastTradePrice bytes)]
  constructor
  · intro h
    obtain ⟨bytes', hfile, heq⟩ := h.accepted (by rw [hload])
    rw [← Option.some.inj hfile, hload] at heq
    exact congrArg Loaded.book heq
  · intro h
    refine ⟨fun hbad ↦ ?_, fun _ ↦ ⟨bytes, rfl, ?_⟩⟩
    · rw [hload] at hbad
      exact absurd hbad (by simp)
    · rw [hload, h, SnapshotFile.book]

/-- A file that is cut off leaves everything as it was exactly if it is cut off harmlessly. -/
private theorem allOrNothing_cut_iff (hm : HasMagic bytes) (hw : ¬Whole layout bytes) :
    AllOrNothing layout (some bytes) b pendingStops sequence ↔
      CutHarmlessly layout bytes b pendingStops sequence := by
  have hload := load_eq layout bytes b pendingStops sequence
  rw [if_pos hm, decide_eq_false hw] at hload
  have hsequence : (Layout.word64.readInto sequence (.behind 4 bytes)).1 = sequence ↔
      (bytes.drop 4).take Layout.word64.size <+: Layout.word64.write sequence :=
    Layout.readInto_behind_eq_self_iff (Layout.word64_restores sequence) Layout.word64_read_inj
  have hat (hzero : orderCount bytes = 0) : stopsAt layout bytes + 4 = 28 := by
    rw [stopsAt, hzero, Nat.zero_mul]
  have hempty (hzero : orderCount bytes = 0) :
      readOrdersAt layout 24 (orderCount bytes) bytes = [] := by
    rw [hzero]
    rfl
  constructor
  · intro h
    have hsame := h.refused (by rw [hload])
    rw [hload] at hsame
    obtain ⟨hnone, hlast⟩ := (foldl_insertOrder_eq_self_iff _ b _).mp
      (congrArg Loaded.book hsame)
    have hzero : orderCount bytes = 0 := by
      have hlen := readOrders_length layout (orderCount bytes) (.behind 24 bytes)
      rw [← hlen]
      exact List.length_eq_zero_iff.mpr hnone
    have hstops := congrArg Loaded.pendingStops hsame
    simp only [hat hzero] at hstops
    exact ⟨hzero, hlast, hstops, hsequence.mp (congrArg Loaded.sequence hsame)⟩
  · intro h
    refine ⟨fun _ ↦ ?_, fun hgood ↦ ?_⟩
    · rw [hload, hempty h.orders, hat h.orders, h.stops, hsequence.mpr h.sequence, List.foldl_nil,
        h.lastTradePrice]
    · rw [hload] at hgood
      exact absurd hgood (by simp)

/-- The snapshot of a book with one order at sequence number 7. -/
private def savedOne : List UInt8 :=
  save Order.layout
    ((OrderBook.empty : OrderBook PriceLevel).insertOrder { id := 1, price := 100, quantity := 5 })
    [] 7

end LobEngine
