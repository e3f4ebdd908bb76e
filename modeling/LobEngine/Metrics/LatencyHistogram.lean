import LobEngine.Lib.CumulativeScan
import LobEngine.Lib.Words
import Mathlib.Data.Rat.Floor

/-!
# Latency histogram

`src/metrics/histogram.hpp`. Latencies are counted in buckets of three resolutions;
`percentile` sums the buckets until the sum reaches its target.
-/

namespace LobEngine

/-- Buckets of 1 ns below 1 µs, of 1 µs below 1 ms and of 100 µs below 9 ms;
`src/metrics/histogram.hpp:48`. -/
def kBuckets : Nat := 1000 + 1000 + 90

/-- `class LatencyHistogram`; `src/metrics/histogram.hpp:10–71`. -/
structure LatencyHistogram where
  buckets : Fin kBuckets → UInt64 := fun _ ↦ 0
  count : UInt64 := 0
  max : UInt64 := 0

namespace LatencyHistogram

/-- `LatencyHistogram::bucket_index`; `src/metrics/histogram.hpp:53–61`. -/
def bucketIndex (ns : UInt64) : UInt64 :=
  if ns < 1000 then ns
  else if ns < 1000000 then 1000 + ns / 1000
  else if ns < 10000000 then 2000 + ns / 100000
  else UInt64.ofNat kBuckets

/-- `LatencyHistogram::bucket_to_ns`; `src/metrics/histogram.hpp:63–69`. -/
def bucketToNs (idx : UInt64) : UInt64 :=
  if idx < 1000 then idx
  else if idx < 2000 then (idx - 1000) * 1000
  else (idx - 2000) * 100000

/-- `LatencyHistogram::record`; `src/metrics/histogram.hpp:12–20`. -/
def record (h : LatencyHistogram) (latencyNs : UInt64) : LatencyHistogram where
  count := h.count + 1
  max := if latencyNs > h.max then latencyNs else h.max
  buckets i := if (bucketIndex latencyNs).toNat = i then h.buckets i + 1 else h.buckets i

/-- The target of `percentile`, computed exactly; `src/metrics/histogram.hpp:25`. -/
def target (h : LatencyHistogram) (p : ℚ) : UInt64 := UInt64.ofNat ⌊h.count.toNat * p / 100⌋₊

/-- `LatencyHistogram::percentile`; `src/metrics/histogram.hpp:22–34`. -/
def percentile (h : LatencyHistogram) (p : ℚ) : UInt64 :=
  if h.count = 0 then 0
  else
    match firstReach h.buckets (h.target p) 0 (List.finRange kBuckets) with
    | some i => bucketToNs (UInt64.ofNat i)
    | none => h.max

/-- `LatencyHistogram::max_val`; `src/metrics/histogram.hpp:39`. -/
def maxVal (h : LatencyHistogram) : UInt64 := h.max

/-- `LatencyHistogram::reset`; `src/metrics/histogram.hpp:42–46`. -/
def reset (h : LatencyHistogram) : LatencyHistogram :=
  { h with buckets := fun _ ↦ 0, count := 0, max := 0 }

/-- The latencies are recorded in order. -/
def recordAll (h : LatencyHistogram) (latencies : List UInt64) : LatencyHistogram :=
  latencies.foldl record h

private theorem recordAll_concat (h : LatencyHistogram) (latencies : List UInt64)
    (latency : UInt64) :
    h.recordAll (latencies ++ [latency]) = (h.recordAll latencies).record latency :=
  List.foldl_concat ..

/-- What the buckets and the maximum say about the latencies recorded. The number of latencies
is known up to the wrap of a word. -/
structure Records (h : LatencyHistogram) (latencies : List UInt64) : Prop where
  count : h.count = UInt64.ofNat latencies.length
  le_max : ∀ l ∈ latencies, l ≤ h.max
  bucket : ∀ i, h.buckets i ≠ 0 → ∃ l ∈ latencies, (bucketIndex l).toNat = i

theorem Records.record {h : LatencyHistogram} {latencies : List UInt64}
    (hr : Records h latencies) (l : UInt64) : Records (h.record l) (latencies ++ [l]) where
  count := by
    rw [List.length_append, UInt64.ofNat_add, ← hr.count]
    rfl
  le_max x hx := by
    simp only [LatencyHistogram.record]
    rcases List.mem_append.mp hx with hx | hx
    · have hle := hr.le_max x hx
      split
      · next hl => exact Std.le_trans hle (Std.le_of_lt hl)
      · exact hle
    · obtain rfl := List.mem_singleton.mp hx
      split
      · exact Std.le_refl x
      · next hl => exact Std.not_lt.mp hl
  bucket i hi := by
    simp only [LatencyHistogram.record] at hi
    split at hi
    · next hl => exact ⟨l, List.mem_append_right _ List.mem_cons_self, hl⟩
    · obtain ⟨x, hx, hxi⟩ := hr.bucket i hi
      exact ⟨x, List.mem_append_left _ hx, hxi⟩

theorem Records.recordAll {h : LatencyHistogram} {before : List UInt64} (hr : Records h before)
    (latencies : List UInt64) : Records (h.recordAll latencies) (before ++ latencies) := by
  induction latencies using List.reverseRecOn with
  | nil => simpa [LatencyHistogram.recordAll] using hr
  | append_singleton ls l ih =>
    rw [recordAll_concat, ← List.append_assoc]
    exact ih.record l

theorem Records.blank : Records {} [] where
  count := rfl
  le_max _ hl := absurd hl List.not_mem_nil
  bucket _ hi := absurd rfl hi

/-! ## Bucket floors -/

private theorem toNat_bucketIndex {l : UInt64} (hl : l < 10000000) : (bucketIndex l).toNat =
    if l.toNat < 1000 then l.toNat
    else if l.toNat < 1000000 then 1000 + l.toNat / 1000 else 2000 + l.toNat / 100000 := by
  have hn : l.toNat < 10000000 := UInt64.lt_iff_toNat_lt.mp hl
  simp only [bucketIndex, UInt64.lt_iff_toNat_lt, UInt64.reduceToNat, hn, ↓reduceIte]
  split
  · rfl
  · split
    · rw [UInt64.toNat_add, UInt64.toNat_div]
      simp only [UInt64.reduceToNat]
      omega
    · rw [UInt64.toNat_add, UInt64.toNat_div]
      simp only [UInt64.reduceToNat]
      omega

/-- The least latency of the bucket of a latency. -/
def bucketFloor (l : UInt64) : UInt64 := bucketToNs (bucketIndex l)

private theorem toNat_bucketFloor {l : UInt64} (hl : l < 10000000) : (bucketFloor l).toNat =
    if l.toNat < 1000 then l.toNat
    else if l.toNat < 1000000 then l.toNat / 1000 * 1000 else l.toNat / 100000 * 100000 := by
  have hn : l.toNat < 10000000 := UInt64.lt_iff_toNat_lt.mp hl
  have hidx := toNat_bucketIndex hl
  simp only [bucketFloor, bucketToNs, UInt64.lt_iff_toNat_lt, UInt64.reduceToNat]
  generalize bucketIndex l = idx at hidx ⊢
  by_cases hns : l.toNat < 1000
  · rw [if_pos hns] at hidx ⊢
    rw [if_pos (by omega), hidx]
  · rw [if_neg hns] at hidx ⊢
    by_cases hus : l.toNat < 1000000
    · rw [if_pos hus] at hidx ⊢
      have hle : 1000 ≤ idx := UInt64.le_iff_toNat_le.mpr (by simp only [UInt64.reduceToNat]; omega)
      rw [if_neg (by omega), if_pos (by omega), UInt64.toNat_mul, UInt64.toNat_sub_of_le _ _ hle]
      simp only [UInt64.reduceToNat]
      omega
    · rw [if_neg hus] at hidx ⊢
      have hle : 2000 ≤ idx := UInt64.le_iff_toNat_le.mpr (by simp only [UInt64.reduceToNat]; omega)
      rw [if_neg (by omega), if_neg (by omega), UInt64.toNat_mul, UInt64.toNat_sub_of_le _ _ hle]
      simp only [UInt64.reduceToNat]
      omega

theorem bucketFloor_le {l : UInt64} (hl : l < 10000000) : bucketFloor l ≤ l := by
  rw [UInt64.le_iff_toNat_le, toNat_bucketFloor hl]
  split
  · exact Nat.le_refl _
  · split
    · omega
    · omega

theorem bucketFloor_mono {k l : UInt64} (hl : l < 10000000) (hkl : k ≤ l) :
    bucketFloor k ≤ bucketFloor l := by
  have hn := UInt64.le_iff_toNat_le.mp hkl
  rw [UInt64.le_iff_toNat_le, toNat_bucketFloor (Std.lt_of_le_of_lt hkl hl), toNat_bucketFloor hl]
  split_ifs <;> omega

/-- A latency of a lower bucket is lower. -/
theorem lt_of_bucketIndex_lt {k l : UInt64} (hk : k < 10000000) (hl : l < 10000000)
    (h : (bucketIndex k).toNat < (bucketIndex l).toNat) : k < l := by
  have hkn : k.toNat < 10000000 := UInt64.lt_iff_toNat_lt.mp hk
  rw [toNat_bucketIndex hk, toNat_bucketIndex hl] at h
  rw [UInt64.lt_iff_toNat_lt]
  split_ifs at h <;> omega

/-- Only the latency 0 has the floor 0. -/
theorem bucketFloor_eq_zero {l : UInt64} (hl : l < 10000000) : bucketFloor l = 0 ↔ l = 0 := by
  rw [UInt64.eq_zero_iff_toNat, UInt64.eq_zero_iff_toNat, toNat_bucketFloor hl]
  split
  · rfl
  · split
    · omega
    · omega

end LatencyHistogram

end LobEngine
