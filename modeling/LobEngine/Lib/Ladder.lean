import Mathlib.Data.List.Sort
import Mathlib.Order.Basic

/-!
# Ladders: lists sorted by a key, first come first served

A ladder lists items so that keys never go down in the order of a comparator. An item
enters behind every item whose key is not after its own, so equal keys keep their
order of arrival. The rung of a key is the list of items that carry it.
-/

universe u v

/-- A list whose keys are sorted by a comparator. -/
structure Ladder {α : Type u} {κ : Type v} (cmp : κ → κ → Ordering) (key : α → κ) where
  items : List α
  sorted : items.Pairwise (fun a b ↦ (cmp (key a) (key b)).isLE = true)

namespace Ladder

variable {α : Type u} {κ : Type v} {cmp : κ → κ → Ordering} {key : α → κ}

/-- Ladders with the same items are equal. -/
@[ext] theorem ext {l m : Ladder cmp key} (h : l.items = m.items) : l = m := by
  cases l
  cases m
  cases h
  rfl

/-- The ladder without items. -/
def empty : Ladder cmp key := ⟨[], List.Pairwise.nil⟩

/-- Keep the items that satisfy `p`. -/
def filter (p : α → Bool) (l : Ladder cmp key) : Ladder cmp key :=
  ⟨l.items.filter p, l.sorted.filter p⟩

/-- Rewrite items in place; no key may change. -/
def update (f : α → α) (hf : ∀ a, key (f a) = key a) (l : Ladder cmp key) : Ladder cmp key :=
  ⟨l.items.map f, List.pairwise_map.mpr (by simpa only [hf] using l.sorted)⟩

/-- Rewrite or drop items; no key may change. -/
def filterMap (f : α → Option α) (hf : ∀ a b, f a = some b → key b = key a)
    (l : Ladder cmp key) : Ladder cmp key where
  items := l.items.filterMap f
  sorted := by
    rw [List.pairwise_filterMap]
    apply l.sorted.imp
    intro a a' hle b hb b' hb'
    rwa [hf a b hb, hf a' b' hb']

/-- The list with `x` behind every item whose key is not after that of `x`. -/
def insertList (cmp : κ → κ → Ordering) (key : α → κ) (x : α) (xs : List α) : List α :=
  xs.orderedInsert (fun a b ↦ cmp (key a) (key b) = .lt) x

theorem insertList_perm (x : α) (xs : List α) :
    List.Perm (insertList cmp key x xs) (x :: xs) :=
  List.perm_orderedInsert _ x xs

theorem mem_insertList {x y : α} {xs : List α} :
    y ∈ insertList cmp key x xs ↔ y = x ∨ y ∈ xs := by
  rw [(insertList_perm x xs).mem_iff, List.mem_cons]

section Insert

variable [Std.TransCmp cmp]

private theorem isLE_of_not_lt {a b : κ} (h : cmp a b ≠ .lt) : (cmp b a).isLE = true := by
  have hs : cmp b a = (cmp a b).swap := Std.OrientedCmp.eq_swap
  rw [hs]
  cases hc : cmp a b with
  | lt => exact absurd hc h
  | eq => rfl
  | gt => rfl

private theorem isLE_self (a : κ) : (cmp a a).isLE = true := by
  have hs : cmp a a = .eq := Std.ReflCmp.compare_self
  rw [hs]
  rfl

theorem sorted_insertList (x : α) {xs : List α}
    (h : xs.Pairwise (fun a b ↦ (cmp (key a) (key b)).isLE = true)) :
    (insertList cmp key x xs).Pairwise (fun a b ↦ (cmp (key a) (key b)).isLE = true) := by
  induction xs with
  | nil => exact List.pairwise_singleton _ x
  | cons y ys ih =>
    have hys := List.pairwise_cons.mp h
    rw [insertList, List.orderedInsert_cons]
    by_cases hlt : cmp (key x) (key y) = .lt
    · rw [if_pos hlt]
      refine List.pairwise_cons.mpr ⟨?_, h⟩
      intro z hz
      have hxy : (cmp (key x) (key y)).isLE = true := by rw [hlt]; rfl
      rcases List.mem_cons.mp hz with rfl | hz
      · exact hxy
      · exact Std.TransCmp.isLE_trans hxy (hys.1 z hz)
    · rw [if_neg hlt]
      refine List.pairwise_cons.mpr ⟨?_, ih hys.2⟩
      intro z hz
      rcases mem_insertList.mp hz with rfl | hz
      · exact isLE_of_not_lt hlt
      · exact hys.1 z hz

/-- Insert an item behind its equals. -/
def insert (x : α) (l : Ladder cmp key) : Ladder cmp key :=
  ⟨insertList cmp key x l.items, sorted_insertList x l.sorted⟩

theorem insert_perm (x : α) (l : Ladder cmp key) :
    List.Perm (l.insert x).items (x :: l.items) := insertList_perm x l.items

theorem mem_insert {x y : α} {l : Ladder cmp key} :
    y ∈ (l.insert x).items ↔ y = x ∨ y ∈ l.items := mem_insertList

end Insert

section Rung

variable [DecidableEq κ]

/-- The items that carry key `k`, in order. -/
def rung (l : Ladder cmp key) (k : κ) : List α := l.items.filter (fun a ↦ key a = k)

theorem mem_rung {l : Ladder cmp key} {k : κ} {a : α} :
    a ∈ l.rung k ↔ a ∈ l.items ∧ key a = k := by
  simp [rung]

/-- Filtering commutes with taking a rung. -/
theorem rung_filter (p : α → Bool) (l : Ladder cmp key) (k : κ) :
    (l.filter p).rung k = (l.rung k).filter p := by
  rw [rung, filter, rung, List.filter_comm]

/-- Updates act rung by rung. -/
theorem rung_update (f : α → α) (hf : ∀ a, key (f a) = key a) (l : Ladder cmp key) (k : κ) :
    (l.update f hf).rung k = (l.rung k).map f := by
  simp only [rung, update, List.filter_map]
  congr 1
  apply List.filter_congr
  intro a _
  simp [hf]

/-- Rewriting and dropping items acts rung by rung. -/
theorem rung_filterMap (f : α → Option α) (hf : ∀ a b, f a = some b → key b = key a)
    (l : Ladder cmp key) (k : κ) : (l.filterMap f hf).rung k = (l.rung k).filterMap f := by
  simp only [rung, filterMap, List.filter_filterMap, List.filterMap_filter]
  apply List.filterMap_congr
  intro a _
  cases hfa : f a with
  | none => simp
  | some b =>
    rw [← hf a b hfa]
    by_cases hb : key b = k <;> simp [Option.filter, hb]

/-- The best item heads its own rung. -/
theorem rung_head {l : Ladder cmp key} {a : α} {rest : List α} (h : l.items = a :: rest) :
    l.rung (key a) = a :: rest.filter (fun b ↦ key b = key a) := by
  rw [rung, h, List.filter_cons_of_pos (by simp)]

omit [DecidableEq κ] in
/-- No key is before that of the head. -/
theorem head_le {l : Ladder cmp key} [Std.TransCmp cmp] {a b : α} {rest : List α}
    (h : l.items = a :: rest) (hb : b ∈ l.items) : (cmp (key a) (key b)).isLE = true := by
  have hs := l.sorted
  rw [h] at hs hb
  rcases List.mem_cons.mp hb with rfl | hb
  · exact isLE_self (key b)
  · exact (List.pairwise_cons.mp hs).1 b hb

variable [Std.TransCmp cmp] [Std.LawfulEqCmp cmp]

private theorem filter_insertList (x : α) (k : κ) {xs : List α}
    (h : xs.Pairwise (fun a b ↦ (cmp (key a) (key b)).isLE = true)) :
    (insertList cmp key x xs).filter (fun a ↦ key a = k) =
      xs.filter (fun a ↦ key a = k) ++ if key x = k then [x] else [] := by
  induction xs with
  | nil =>
    by_cases hx : key x = k <;> simp [insertList, hx]
  | cons y ys ih =>
    have hys := List.pairwise_cons.mp h
    rw [insertList, List.orderedInsert_cons]
    by_cases hlt : cmp (key x) (key y) = .lt
    · rw [if_pos hlt]
      by_cases hx : key x = k
      · -- every item from `y` on is strictly after `x`, so none carries its key
        have hnone : (y :: ys).filter (fun a ↦ key a = k) = [] := by
          apply List.filter_eq_nil_iff.mpr
          intro z hz hzk
          have hyz : (cmp (key y) (key z)).isLE = true := by
            rcases List.mem_cons.mp hz with rfl | hz
            · exact isLE_self (key z)
            · exact hys.1 z hz
          have hxz : cmp (key x) (key z) = .lt := Std.TransCmp.lt_of_lt_of_isLE hlt hyz
          have hxx : cmp (key x) (key x) = .eq := Std.ReflCmp.compare_self
          rw [of_decide_eq_true hzk, ← hx, hxx] at hxz
          exact absurd hxz (by decide)
        rw [List.filter_cons_of_pos (by simp [hx]), hnone]
        simp [hx]
      · rw [List.filter_cons_of_neg (by simp [hx])]
        simp [hx]
    · rw [if_neg hlt]
      have hrec := ih hys.2
      rw [insertList] at hrec
      by_cases hy : key y = k <;> simp [hy, hrec]

/-- A new item goes to the back of its own rung and leaves the others alone. -/
theorem rung_insert (x : α) (l : Ladder cmp key) (k : κ) :
    (l.insert x).rung k = l.rung k ++ if key x = k then [x] else [] :=
  filter_insertList x k l.sorted

/-- A sorted list is determined by the items of each key, in their order. -/
private theorem eq_of_rungs {xs ys : List α}
    (hx : xs.Pairwise (fun a b ↦ (cmp (key a) (key b)).isLE = true))
    (hy : ys.Pairwise (fun a b ↦ (cmp (key a) (key b)).isLE = true))
    (h : ∀ k, xs.filter (fun a ↦ key a = k) = ys.filter (fun a ↦ key a = k)) : xs = ys := by
  have hmem {a : α} : a ∈ xs ↔ a ∈ ys := by
    have hself (zs : List α) : a ∈ zs ↔ a ∈ zs.filter (fun b ↦ key b = key a) := by simp
    rw [hself xs, h, ← hself ys]
  induction xs generalizing ys with
  | nil =>
    cases ys with
    | nil => rfl
    | cons y ys => exact absurd (hmem.mpr List.mem_cons_self) List.not_mem_nil
  | cons x xs ih =>
    cases ys with
    | nil => exact absurd (hmem.mp List.mem_cons_self) List.not_mem_nil
    | cons y ys =>
      have hx' := List.pairwise_cons.mp hx
      have hy' := List.pairwise_cons.mp hy
      have hxy : (cmp (key x) (key y)).isLE = true := by
        rcases List.mem_cons.mp (hmem.mpr (List.mem_cons_self : y ∈ y :: ys)) with he | hy
        · rw [he]
          exact isLE_self (key x)
        · exact hx'.1 y hy
      have hyx : (cmp (key y) (key x)).isLE = true := by
        rcases List.mem_cons.mp (hmem.mp (List.mem_cons_self : x ∈ x :: xs)) with he | hx
        · rw [he]
          exact isLE_self (key y)
        · exact hy'.1 x hx
      have hkey : key x = key y :=
        Std.LawfulEqCmp.eq_of_compare (Std.OrientedCmp.isLE_antisymm hxy hyx)
      -- both lists start the rung of this key, so they start with the same item
      have hrung := h (key x)
      rw [List.filter_cons_of_pos (by simp), List.filter_cons_of_pos (by simp [hkey])] at hrung
      obtain ⟨rfl, hrest⟩ := List.cons.inj hrung
      have htails : ∀ k, xs.filter (fun a ↦ key a = k) = ys.filter (fun a ↦ key a = k) := by
        intro k
        by_cases hk : key x = k
        · rwa [hk] at hrest
        · have hk' := h k
          rwa [List.filter_cons_of_neg (by simpa using hk),
            List.filter_cons_of_neg (by simpa using hk)] at hk'
      rw [ih hx'.2 hy'.2 htails]
      intro a
      have hself (zs : List α) : a ∈ zs ↔ a ∈ zs.filter (fun b ↦ key b = key a) := by simp
      rw [hself xs, htails, ← hself ys]

/-- A ladder is determined by its rungs. -/
theorem ext_rung {l m : Ladder cmp key} (h : ∀ k, l.rung k = m.rung k) : l = m :=
  Ladder.ext (eq_of_rungs l.sorted m.sorted h)

/-- A ladder lists the rungs of its keys, first key first. -/
theorem flatMap_rung {l : Ladder cmp key} {ks : List κ}
    (hs : ks.Pairwise (fun a b ↦ cmp a b = .lt)) (hk : ∀ a ∈ l.items, key a ∈ ks) :
    ks.flatMap l.rung = l.items := by
  have hsorted : (ks.flatMap l.rung).Pairwise
      (fun a b ↦ (cmp (key a) (key b)).isLE = true) := by
    rw [List.pairwise_flatMap]
    refine ⟨fun k _ ↦ ?_, hs.imp fun {k k'} hlt a ha b hb ↦ ?_⟩
    · exact l.sorted.sublist List.filter_sublist
    · rw [(mem_rung.mp ha).2, (mem_rung.mp hb).2, hlt]
      rfl
  have hrung (k : κ) : (ks.flatMap l.rung).filter (fun a ↦ key a = k) = l.rung k := by
    clear hsorted
    by_cases hmem : k ∈ ks
    · clear hk
      induction ks with
      | nil => exact absurd hmem List.not_mem_nil
      | cons k' ks ih =>
        have hs' := List.pairwise_cons.mp hs
        rw [List.flatMap_cons, List.filter_append]
        by_cases he : k' = k
        · subst he
          have hself : (l.rung k').filter (fun a ↦ key a = k') = l.rung k' := by
            rw [List.filter_eq_self]
            intro a ha
            simpa using (mem_rung.mp ha).2
          have hnone : (ks.flatMap l.rung).filter (fun a ↦ key a = k') = [] := by
            rw [List.filter_eq_nil_iff]
            intro a ha hak
            obtain ⟨k'', hk'', ha⟩ := List.mem_flatMap.mp ha
            have hlt := hs'.1 k'' hk''
            have hself : cmp k' k' = .eq := Std.ReflCmp.compare_self
            rw [← (mem_rung.mp ha).2, of_decide_eq_true hak, hself] at hlt
            exact absurd hlt (by decide)
          rw [hself, hnone, List.append_nil]
        · have hnone : (l.rung k').filter (fun a ↦ key a = k) = [] := by
            rw [List.filter_eq_nil_iff]
            intro a ha hak
            exact he ((mem_rung.mp ha).2.symm.trans (of_decide_eq_true hak))
          rw [hnone, List.nil_append]
          exact ih hs'.2 ((List.mem_cons.mp hmem).resolve_left (Ne.symm he))
    · have hnil : l.rung k = [] := by
        rw [rung, List.filter_eq_nil_iff]
        intro a ha hak
        exact hmem (of_decide_eq_true hak ▸ hk a ha)
      rw [hnil, List.filter_eq_nil_iff]
      intro a ha hak
      obtain ⟨k', hk', ha⟩ := List.mem_flatMap.mp ha
      exact hmem (of_decide_eq_true hak ▸ (mem_rung.mp ha).2 ▸ hk')
  have heq : (⟨ks.flatMap l.rung, hsorted⟩ : Ladder cmp key) = l := ext_rung hrung
  exact congrArg Ladder.items heq

end Rung

end Ladder
