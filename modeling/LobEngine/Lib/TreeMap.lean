import Std.Data.ExtTreeMap

/-!
# First entries of ordered maps

What `begin()` of an ordered map observes, in terms of lookups, and maps whose keys and values
are rewritten without changing the order of the keys.
-/

namespace Std.ExtTreeMap

universe u v

variable {κ : Type u} {ν : Type v} {cmp : κ → κ → Ordering} [Std.TransCmp cmp]
  [Std.LawfulEqCmp cmp] {m : Std.ExtTreeMap κ ν cmp}

/-- The first entry, in key order. -/
def first? (m : Std.ExtTreeMap κ ν cmp) : Option (κ × ν) := m.toList.head?

omit [Std.LawfulEqCmp cmp] in
private theorem keys_head? : m.keys.head? = m.first?.map Prod.fst := by
  rw [first?, ← Std.ExtTreeMap.map_fst_toList_eq_keys, List.head?_map]

/-- The first entry is a stored entry with the least key. -/
theorem first?_eq_some_iff {k : κ} {v : ν} :
    m.first? = some (k, v) ↔ m[k]? = some v ∧ ∀ k' ∈ m, (cmp k k').isLE = true := by
  constructor
  · intro h
    have hmin : m.minKey? = some k := by
      rw [Std.ExtTreeMap.minKey?_eq_head?_keys, keys_head?, h]
      rfl
    have hmem : (k, v) ∈ m.toList := List.mem_of_mem_head? h
    exact ⟨Std.ExtTreeMap.mem_toList_iff_getElem?_eq_some.mp hmem,
      (Std.ExtTreeMap.minKey?_eq_some_iff_mem_and_forall.mp hmin).2⟩
  · rintro ⟨hget, hle⟩
    have hmem : k ∈ m := Std.ExtTreeMap.mem_iff_isSome_getElem?.mpr (by rw [hget]; rfl)
    have hmin := Std.ExtTreeMap.minKey?_eq_some_iff_mem_and_forall.mpr ⟨hmem, hle⟩
    rw [Std.ExtTreeMap.minKey?_eq_head?_keys, keys_head?] at hmin
    cases hf : m.first? with
    | none => rw [hf] at hmin; exact absurd hmin (by simp)
    | some entry =>
      obtain ⟨k', v'⟩ := entry
      rw [hf] at hmin
      obtain rfl : k' = k := by simpa using hmin
      have hget' := Std.ExtTreeMap.mem_toList_iff_getElem?_eq_some.mp (List.mem_of_mem_head? hf)
      rw [hget] at hget'
      rw [Option.some.inj hget']

/-- There is no first entry exactly when there is no entry. -/
theorem first?_eq_none_iff : m.first? = none ↔ ∀ k : κ, m[k]? = none := by
  rw [first?, List.head?_eq_none_iff]
  constructor
  · intro h k
    cases hk : m[k]? with
    | none => rfl
    | some v =>
      have hmem := Std.ExtTreeMap.mem_toList_iff_getElem?_eq_some.mpr hk
      rw [h] at hmem
      exact absurd hmem List.not_mem_nil
  · intro h
    apply List.eq_nil_iff_forall_not_mem.mpr
    rintro ⟨k, v⟩ hmem
    have hk := Std.ExtTreeMap.mem_toList_iff_getElem?_eq_some.mp hmem
    rw [h k] at hk
    exact absurd hk (by simp)

/-! ### Rewriting keys and values -/

section Rekey

variable {κ' : Type u} {ν' : Type v} {cmp' : κ' → κ' → Ordering} [Std.TransCmp cmp']
  [Std.LawfulEqCmp cmp']

/-- The map with every key and every value rewritten. -/
def rekey (cmp' : κ' → κ' → Ordering) (f : κ → κ') (g : ν → ν') (m : Std.ExtTreeMap κ ν cmp) :
    Std.ExtTreeMap κ' ν' cmp' :=
  .ofList (m.toList.map fun entry ↦ (f entry.1, g entry.2)) cmp'

variable {f : κ → κ'} {g : ν → ν'} (hf : ∀ a b, cmp' (f a) (f b) = cmp a b)

include hf

omit [Std.TransCmp cmp] [Std.TransCmp cmp'] in
private theorem rekey_inj {a b : κ} (h : f a = f b) : a = b := by
  have hcmp : cmp a b = .eq := by
    rw [← hf, h]
    exact Std.ReflCmp.compare_self
  exact Std.LawfulEqCmp.eq_of_compare hcmp

/-- The entries of the rewritten map are the rewritten entries. -/
theorem getElem?_rekey_eq_some_iff {k' : κ'} {v' : ν'} :
    (m.rekey cmp' f g)[k']? = some v' ↔ ∃ k v, m[k]? = some v ∧ f k = k' ∧ g v = v' := by
  have hdistinct : (m.toList.map fun entry ↦ (f entry.1, g entry.2)).Pairwise
      (fun a b ↦ ¬cmp' a.1 b.1 = .eq) := by
    rw [List.pairwise_map]
    refine Std.ExtTreeMap.distinct_keys_toList.imp fun {a b} hne ↦ ?_
    rwa [hf]
  have hmem {k : κ} {v : ν} (hkv : m[k]? = some v) :
      (m.rekey cmp' f g)[f k]? = some (g v) := by
    apply Std.ExtTreeMap.getElem?_ofList_of_mem Std.ReflCmp.compare_self hdistinct
    exact List.mem_map.mpr ⟨(k, v), Std.ExtTreeMap.mem_toList_iff_getElem?_eq_some.mpr hkv, rfl⟩
  constructor
  · intro h
    have hk : k' ∈ m.rekey cmp' f g := by
      rw [Std.ExtTreeMap.mem_iff_isSome_getElem?, h]
      rfl
    classical
    rw [rekey, Std.ExtTreeMap.mem_ofList, List.contains_iff_mem, List.map_map] at hk
    obtain ⟨⟨k, v⟩, hkv, rfl⟩ := List.mem_map.mp hk
    rw [Std.ExtTreeMap.mem_toList_iff_getElem?_eq_some] at hkv
    exact ⟨k, v, hkv, rfl, Option.some.inj ((hmem hkv).symm.trans h)⟩
  · rintro ⟨k, v, hkv, rfl, rfl⟩
    exact hmem hkv

theorem getElem?_rekey (k : κ) : (m.rekey cmp' f g)[f k]? = (m[k]?).map g := by
  apply Option.ext
  intro v'
  rw [getElem?_rekey_eq_some_iff hf, Option.map_eq_some_iff]
  constructor
  · rintro ⟨k₁, v, hkv, hk, hv⟩
    rw [rekey_inj hf hk] at hkv
    exact ⟨v, hkv, hv⟩
  · rintro ⟨v, hkv, hv⟩
    exact ⟨k, v, hkv, rfl, hv⟩

theorem rekey_insert (k : κ) (v : ν) :
    (m.insert k v).rekey cmp' f g = (m.rekey cmp' f g).insert (f k) (g v) := by
  apply Std.ExtTreeMap.ext_getElem?
  intro k'
  apply Option.ext
  intro v'
  rw [getElem?_rekey_eq_some_iff hf, Std.ExtTreeMap.getElem?_insert]
  split
  · next hk =>
    obtain rfl := Std.LawfulEqCmp.eq_of_compare hk
    constructor
    · rintro ⟨k₁, v₁, hkv, hk, rfl⟩
      obtain rfl := rekey_inj hf hk
      have hv : v = v₁ := by simpa using hkv
      rw [hv]
    · intro hv
      exact ⟨k, v, by simp, rfl, Option.some.inj hv⟩
  · next hk =>
    rw [getElem?_rekey_eq_some_iff hf]
    constructor
    · rintro ⟨k₁, v₁, hkv, rfl, rfl⟩
      have hne : k ≠ k₁ := fun he ↦ hk (he ▸ Std.ReflCmp.compare_self)
      rw [Std.ExtTreeMap.getElem?_insert, if_neg (by simpa using hne)] at hkv
      exact ⟨k₁, v₁, hkv, rfl, rfl⟩
    · rintro ⟨k₁, v₁, hkv, rfl, rfl⟩
      have hne : k ≠ k₁ := fun he ↦ hk (he ▸ Std.ReflCmp.compare_self)
      refine ⟨k₁, v₁, ?_, rfl, rfl⟩
      rw [Std.ExtTreeMap.getElem?_insert, if_neg (by simpa using hne)]
      exact hkv

theorem rekey_erase (k : κ) :
    (m.erase k).rekey cmp' f g = (m.rekey cmp' f g).erase (f k) := by
  apply Std.ExtTreeMap.ext_getElem?
  intro k'
  apply Option.ext
  intro v'
  rw [getElem?_rekey_eq_some_iff hf, Std.ExtTreeMap.getElem?_erase]
  split
  · next hk =>
    obtain rfl := Std.LawfulEqCmp.eq_of_compare hk
    refine ⟨?_, fun h ↦ absurd h (by simp)⟩
    rintro ⟨k₁, v₁, hkv, hk, rfl⟩
    obtain rfl := rekey_inj hf hk
    simp at hkv
  · next hk =>
    rw [getElem?_rekey_eq_some_iff hf]
    constructor
    · rintro ⟨k₁, v₁, hkv, rfl, rfl⟩
      have hne : k ≠ k₁ := fun he ↦ hk (he ▸ Std.ReflCmp.compare_self)
      rw [Std.ExtTreeMap.getElem?_erase, if_neg (by simpa using hne)] at hkv
      exact ⟨k₁, v₁, hkv, rfl, rfl⟩
    · rintro ⟨k₁, v₁, hkv, rfl, rfl⟩
      have hne : k ≠ k₁ := fun he ↦ hk (he ▸ Std.ReflCmp.compare_self)
      refine ⟨k₁, v₁, ?_, rfl, rfl⟩
      rw [Std.ExtTreeMap.getElem?_erase, if_neg (by simpa using hne)]
      exact hkv

/-- The first entry of the rewritten map is the rewritten first entry. -/
theorem first?_rekey :
    (m.rekey cmp' f g).first? = m.first?.map fun entry ↦ (f entry.1, g entry.2) := by
  cases hm : m.first? with
  | none =>
    rw [Option.map_none, first?_eq_none_iff]
    rw [first?_eq_none_iff] at hm
    intro k'
    rw [Option.eq_none_iff_forall_ne_some]
    intro v' hv
    obtain ⟨k, v, hkv, -, -⟩ := (getElem?_rekey_eq_some_iff hf).mp hv
    rw [hm k] at hkv
    exact absurd hkv (by simp)
  | some entry =>
    obtain ⟨hget, hle⟩ := first?_eq_some_iff.mp hm
    refine first?_eq_some_iff.mpr ⟨?_, fun k' hk' ↦ ?_⟩
    · rw [getElem?_rekey hf, hget]
      rfl
    · obtain ⟨v', hv'⟩ := Option.isSome_iff_exists.mp
        (Std.ExtTreeMap.mem_iff_isSome_getElem?.mp hk')
      obtain ⟨k, v, hkv, rfl, rfl⟩ := (getElem?_rekey_eq_some_iff hf).mp hv'
      rw [hf]
      apply hle
      rw [Std.ExtTreeMap.mem_iff_isSome_getElem?, hkv]
      rfl

end Rekey

end Std.ExtTreeMap
