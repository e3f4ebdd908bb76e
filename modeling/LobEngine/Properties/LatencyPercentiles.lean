import LobEngine.Metrics.LatencyHistogram

/-!
# Percentiles and the recorded latencies

A percentile never exceeds the maximum and grows with its argument. It is below the bucket of
the smallest latency exactly when its target is rounded down to zero.
-/

namespace LobEngine

namespace LatencyHistogram

variable {h : LatencyHistogram} {latencies : List UInt64} {p q : ℚ}

private theorem floor_target_le (hp : p ≤ 100) :
    ⌊(h.count.toNat : ℚ) * p / 100⌋₊ ≤ h.count.toNat := by
  have hc : (0 : ℚ) ≤ h.count.toNat := Nat.cast_nonneg _
  have hle : (h.count.toNat : ℚ) * p / 100 ≤ h.count.toNat := by
    rw [div_le_iff₀ (by norm_num)]
    exact mul_le_mul_of_nonneg_left hp hc
  exact (Nat.floor_le_floor hle).trans_eq (Nat.floor_natCast _)

private theorem toNat_target (hp : p ≤ 100) :
    (h.target p).toNat = ⌊(h.count.toNat : ℚ) * p / 100⌋₊ :=
  UInt64.toNat_ofNat_of_lt' ((floor_target_le hp).trans_lt h.count.toNat_lt)

private theorem target_mono (hpq : p ≤ q) (hq : q ≤ 100) : h.target p ≤ h.target q := by
  rw [UInt64.le_iff_toNat_le, toNat_target (hpq.trans hq), toNat_target hq]
  have hc : (0 : ℚ) ≤ h.count.toNat := Nat.cast_nonneg _
  gcongr

/-- The target is rounded down to zero when fewer than one sample is asked for. -/
private theorem target_eq_zero_iff (hp : p ≤ 100) :
    h.target p = 0 ↔ (h.count.toNat : ℚ) * p < 100 := by
  rw [UInt64.eq_zero_iff_toNat, toNat_target hp, Nat.floor_eq_zero, div_lt_one (by norm_num)]

/-- A target of zero is reached by the first bucket, empty or not. -/
private theorem percentile_of_target_eq_zero (ht : h.target p = 0) : h.percentile p = 0 := by
  rw [percentile]
  split
  · rfl
  · have hrange : List.finRange kBuckets =
        (⟨0, by decide⟩ : Fin kBuckets) :: (List.finRange 2089).map Fin.succ := List.finRange_succ
    rw [ht, hrange, firstReach_cons_of_le UInt64.zero_le]
    rfl

/-- The bucket that reaches a positive target holds a sample. -/
private theorem reached_sample (hr : Records h latencies) (ht : h.target p ≠ 0) {i : Fin kBuckets}
    (hi : firstReach h.buckets (h.target p) 0 (List.finRange kBuckets) = some i) :
    ∃ l ∈ latencies, (bucketIndex l).toNat = i :=
  hr.bucket i (weight_ne_zero_of_firstReach (fun hle ↦ ht (UInt64.le_zero_iff.mp hle)) hi)

private theorem bucketToNs_of_index {l : UInt64} {i : Fin kBuckets}
    (hi : (bucketIndex l).toNat = i) : bucketToNs (UInt64.ofNat i) = bucketFloor l := by
  rw [← hi, UInt64.ofNat_toNat, bucketFloor]

/-- With a positive target a percentile is the floor of a recorded latency, or the maximum. -/
private theorem percentile_of_target_ne_zero (hr : Records h latencies) (ht : h.target p ≠ 0)
    (hc : h.count ≠ 0) :
    (∃ l ∈ latencies, h.percentile p = bucketFloor l) ∨ h.percentile p = h.maxVal := by
  rw [percentile, if_neg hc]
  cases hi : firstReach h.buckets (h.target p) 0 (List.finRange kBuckets) with
  | none => exact .inr rfl
  | some i =>
    obtain ⟨l, hl, hli⟩ := reached_sample hr ht hi
    exact .inl ⟨l, hl, bucketToNs_of_index hli⟩

private theorem count_ne_zero_of_target (ht : h.target p ≠ 0) : h.count ≠ 0 := by
  intro hc
  apply ht
  simp [target, hc]

private theorem percentile_le_max (hr : Records h latencies)
    (hall : ∀ l ∈ latencies, l < 10000000) : h.percentile p ≤ h.maxVal := by
  by_cases ht : h.target p = 0
  · rw [percentile_of_target_eq_zero ht]
    exact UInt64.zero_le
  · rcases percentile_of_target_ne_zero hr ht (count_ne_zero_of_target ht) with ⟨l, hl, he⟩ | he
    · rw [he]
      exact Std.le_trans (bucketFloor_le (hall l hl)) (hr.le_max l hl)
    · rw [he]
      exact Std.le_refl _

private theorem percentile_mono (hr : Records h latencies) (hall : ∀ l ∈ latencies, l < 10000000)
    (hpq : p ≤ q) (hq : q ≤ 100) : h.percentile p ≤ h.percentile q := by
  by_cases ht : h.target p = 0
  · rw [percentile_of_target_eq_zero ht]
    exact UInt64.zero_le
  have hle := target_mono (h := h) hpq hq
  have ht' : h.target q ≠ 0 := fun hz ↦ ht (UInt64.le_zero_iff.mp (hz ▸ hle))
  cases hi : firstReach h.buckets (h.target q) 0 (List.finRange kBuckets) with
  | none =>
    have hmax : h.percentile q = h.maxVal := by
      rw [percentile, if_neg (count_ne_zero_of_target ht'), hi]
      rfl
    rw [hmax]
    exact percentile_le_max hr hall
  | some i =>
    obtain ⟨j, hj, hji⟩ := firstReach_mono hle hi
    obtain ⟨l, hl, hli⟩ := reached_sample hr ht' hi
    obtain ⟨k, hk, hkj⟩ := reached_sample hr ht hj
    simp only [percentile, if_neg (count_ne_zero_of_target ht), hi, hj, bucketToNs_of_index hli,
      bucketToNs_of_index hkj]
    rcases hji with rfl | hsub
    · have he : bucketIndex k = bucketIndex l := UInt64.toNat_inj.mp (hkj.trans hli.symm)
      rw [bucketFloor, bucketFloor, he]
      exact Std.le_refl _
    · have hlt : j < i := by
        have hsorted := (List.sortedLT_finRange kBuckets).pairwise.sublist hsub
        simpa using hsorted
      have hkl := lt_of_bucketIndex_lt (hall k hk) (hall l hl) (by rw [hkj, hli]; exact hlt)
      exact bucketFloor_mono (hall l hl) (Std.le_of_lt hkl)

/-- The percentile lies between the bucket floor of the smallest latency and the maximum, and
no greater percentile is below it. -/
structure Bracketed (h : LatencyHistogram) (smallest : UInt64) (p : ℚ) : Prop where
  floor_le : bucketToNs (bucketIndex smallest) ≤ h.percentile p
  le_max : h.percentile p ≤ h.maxVal
  mono : ∀ q, p ≤ q → q ≤ 100 → h.percentile p ≤ h.percentile q

/-- A histogram as it is constructed or after a reset. -/
def Blank (h : LatencyHistogram) : Prop := h = {} ∨ ∃ g : LatencyHistogram, h = g.reset

theorem Blank.records (hb : Blank h) (latencies : List UInt64) :
    Records (h.recordAll latencies) latencies := by
  have he : h = {} := by
    rcases hb with rfl | ⟨g, rfl⟩
    · rfl
    · rfl
  rw [he]
  exact Records.blank.recordAll latencies

end LatencyHistogram

open LatencyHistogram

/-- For latencies below 10 ms the percentiles are bracketed by the samples exactly when the
target is at least one sample, or a latency of 0 ns is among them. -/
theorem percentile_bracketed_iff (h : LatencyHistogram) (hb : h.Blank) (latencies : List UInt64)
    (hall : ∀ l ∈ latencies, l < 10000000) (smallest : UInt64) (hs : smallest ∈ latencies)
    (hmin : ∀ l ∈ latencies, smallest ≤ l) (p : ℚ) (_ : 0 < p) (hp : p ≤ 100) :
    (h.recordAll latencies).Bracketed smallest p ↔
      100 ≤ ((UInt64.ofNat latencies.length).toNat : ℚ) * p ∨ 0 ∈ latencies := by
  have hr := hb.records latencies
  rw [← hr.count, ← not_lt, ← target_eq_zero_iff hp]
  constructor
  · intro hbr
    by_contra hno
    obtain ⟨ht, hzero⟩ := not_or.mp hno
    have hfloor := hbr.floor_le
    rw [percentile_of_target_eq_zero (not_not.mp ht)] at hfloor
    have hsz := (bucketFloor_eq_zero (hall smallest hs)).mp (UInt64.le_zero_iff.mp hfloor)
    exact hzero (hsz ▸ hs)
  · intro hcase
    refine ⟨?_, percentile_le_max hr hall, fun q hpq hq ↦ percentile_mono hr hall hpq hq⟩
    rcases hcase with ht | hzero
    · rcases percentile_of_target_ne_zero hr ht (count_ne_zero_of_target ht) with ⟨l, hl, he⟩ | he
      · rw [he]
        exact bucketFloor_mono (hall l hl) (hmin l hl)
      · rw [he]
        exact Std.le_trans (bucketFloor_le (hall smallest hs)) (hr.le_max smallest hs)
    · have hsz : smallest = 0 := UInt64.le_zero_iff.mp (hmin 0 hzero)
      rw [hsz]
      exact UInt64.zero_le

theorem percentile_bracketed_iff_one :
    (({} : LatencyHistogram).recordAll [500]).Bracketed 500 100 :=
  (percentile_bracketed_iff {} (.inl rfl) [500] (by simp) 500 (by simp) (by simp) 100
    (by norm_num) (by norm_num)).mpr (.inl (by simp))

/-- The median of one latency of 500 ns is reported as 0. -/
theorem percentile_below_smallest : ¬∀ (latencies : List UInt64) (smallest : UInt64) (p : ℚ),
    (∀ l ∈ latencies, l < 10000000) → smallest ∈ latencies →
      (∀ l ∈ latencies, smallest ≤ l) → 0 < p → p ≤ 100 →
        (({} : LatencyHistogram).recordAll latencies).Bracketed smallest p := by
  intro hall
  have hbr := hall [500] 500 50 (by simp) (by simp) (by simp) (by norm_num) (by norm_num)
  have hfloor := hbr.floor_le
  have ht : (({} : LatencyHistogram).recordAll [500]).target 50 = 0 := by
    rw [target_eq_zero_iff (by norm_num)]
    have hc : (({} : LatencyHistogram).recordAll [500]).count.toNat = 1 := rfl
    rw [hc]
    norm_num
  rw [percentile_of_target_eq_zero ht] at hfloor
  exact absurd hfloor (by decide)

end LobEngine
