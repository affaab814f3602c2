import Mathlib.Data.List.GetD
import Mathlib.Data.List.Sort
import PulseFanout.Framework.Binary64
import PulseFanout.Metrics.Accumulator

/-!
# Percentiles (`percentile` of `metrics.h` and `fec.h`, `value_at` of `sender.cpp`)

A percentile is the value at a rank of the sorted sample. The rank is the product of a literal with
the size of the sample, rounded up, and all of this is done in doubles: neither the literal nor the
product is exact. The rank is nevertheless the right one (`rank_eq`), for every level that is
printed and every sample there can be: the literals are close enough to the decimal fractions they
are written as.

So what is reported are nearest-rank percentiles of the sample in the usual sense
(`IsNearestRank`), and they are in order (`percentiles_exact`).
-/

namespace PulseFanout
namespace Metrics

open Framework Binary64

/-! ### Ranks -/

/-- The rank of level `p`: the size and the rank are converted to `double` where they are
compared or multiplied. -/
def rank (p : ℚ) (n : ℕ) : ℕ :=
  let product := nearest (p * nearest n)
  let rank := ⌊product⌋₊
  let rank := if nearest rank < product then rank + 1 else rank
  let rank := if rank < 1 then 1 else rank
  if n < rank then n else rank

/-- The value at the rank of level `p`; the values are sorted. -/
def valueAt (values : List ℕ) (p : ℚ) : ℕ := values.getD (rank p values.length - 1) 0

/-- `percentile` of `metrics.h`. -/
def percentile (sorted : List ℕ) (p : ℚ) : ℕ := if sorted = [] then 0 else valueAt sorted p

/-- The part of `metrics::Report` that is taken from the sample. -/
structure Percentiles where
  p01 : ℕ := 0
  p50 : ℕ := 0
  p99 : ℕ := 0
  p999 : ℕ := 0
  p9999 : ℕ := 0

/-- The percentiles of `report`. -/
def Accumulator.percentiles (A : Accumulator) : Percentiles :=
  if A.received = 0 then {}
  else
    let s := A.latencies.mergeSort
    { p01 := percentile s (nearest 0.01)
      p50 := percentile s (nearest 0.50)
      p99 := percentile s (nearest 0.99)
      p999 := percentile s (nearest 0.999)
      p9999 := percentile s (nearest 0.9999) }

/-- A literal is close to the fraction `a / b` it is written as. -/
structure Level (p : ℚ) (a b : ℕ) : Prop where
  pos : 0 < a
  le : a ≤ b
  small : b ≤ 2 ^ 20
  close : |p - a / b| ≤ (a : ℚ) / b / 2 ^ 55

theorem level01 : Level (nearest 0.01) 1 100 where
  pos := by decide
  le := by decide
  small := by decide
  close := by
    rw [nearest_literal (-7) 5764607523034235 (by norm_num) (by norm_num) (by norm_num)]
    norm_num

theorem level50 : Level (nearest 0.50) 1 2 where
  pos := by decide
  le := by decide
  small := by decide
  close := by
    rw [nearest_literal (-1) 4503599627370496 (by norm_num) (by norm_num) (by norm_num)]
    norm_num

theorem level99 : Level (nearest 0.99) 99 100 where
  pos := by decide
  le := by decide
  small := by decide
  close := by
    rw [nearest_literal (-1) 8917127262193582 (by norm_num) (by norm_num) (by norm_num)]
    norm_num

theorem level999 : Level (nearest 0.999) 999 1000 where
  pos := by decide
  le := by decide
  small := by decide
  close := by
    rw [nearest_literal (-1) 8998192055486251 (by norm_num) (by norm_num) (by norm_num)]
    norm_num

theorem level9999 : Level (nearest 0.9999) 9999 10000 where
  pos := by decide
  le := by decide
  small := by decide
  close := by
    rw [nearest_literal (-1) 9006298534815518 (by norm_num) (by norm_num) (by norm_num)]
    norm_num

/-- Rounding down and then up if that was too little is rounding up. -/
theorem floor_succ_eq_ceil {y : ℚ} (hy : 0 ≤ y) (hsmall : y < 2 ^ 53) :
    (if nearest ⌊y⌋₊ < y then ⌊y⌋₊ + 1 else ⌊y⌋₊) = ⌈y⌉₊ := by
  have hle := Nat.floor_le hy
  have hfloor : nearest ⌊y⌋₊ = ⌊y⌋₊ := nearest_natCast (by exact_mod_cast hle.trans_lt hsmall)
  rw [hfloor]
  split
  · next hlt =>
    refine le_antisymm (Nat.lt_ceil.mpr hlt) (Nat.ceil_le.mpr ?_)
    push_cast
    exact (Nat.lt_floor_add_one y).le
  · next hge =>
    have heq : y = ⌊y⌋₊ := le_antisymm (not_lt.mp hge) hle
    rw [heq, Nat.floor_natCast, Nat.ceil_natCast]

/-- **The rank is exact.** -/
theorem rank_eq {p : ℚ} {a b n : ℕ} (h : Level p a b) (hn : 0 < n) (hlimit : n ≤ kSampleLimit) :
    rank p n = ⌈(a : ℚ) / b * n⌉₊ ∧ 1 ≤ rank p n ∧ rank p n ≤ n := by
  have hb : 0 < b := h.pos.trans_le h.le
  have hbq : (0 : ℚ) < b := by exact_mod_cast hb
  have haq : (0 : ℚ) < a := by exact_mod_cast h.pos
  have hnq : (0 : ℚ) < n := by exact_mod_cast hn
  have hsmall : a * n ≤ 2 ^ 40 :=
    (Nat.mul_le_mul (h.le.trans h.small) hlimit).trans (by decide)
  -- the product of the fraction lies between zero and `n`
  have hpos : 0 < (a : ℚ) / b * n := by positivity
  have hle : (a : ℚ) / b * n ≤ n := by
    have hone : (a : ℚ) / b ≤ 1 := (div_le_one hbq).mpr (by exact_mod_cast h.le)
    exact mul_le_of_le_one_left hnq.le hone
  have hceil : ⌈nearest (p * n)⌉ = ⌈(a : ℚ) / b * n⌉ :=
    ceil_nearest_mul rfl h.pos hb hn hsmall h.close
  have hcast : ⌈nearest (p * n)⌉₊ = ⌈(a : ℚ) / b * n⌉₊ := by
    rw [← Int.ceil_toNat, ← Int.ceil_toNat, hceil]
  have hyle : nearest (p * n) ≤ n := by
    have hint : ⌈(a : ℚ) / b * n⌉ ≤ n := Int.ceil_le.mpr (by exact_mod_cast hle)
    exact (Int.le_ceil _).trans (by rw [hceil]; exact_mod_cast hint)
  have hypos : 0 < nearest (p * n) := by
    rw [← Int.ceil_pos, hceil, Int.ceil_pos]
    exact hpos
  have hlimitq : (n : ℚ) < 2 ^ 53 := by
    have hlt : n < 2 ^ 53 := hlimit.trans_lt (by decide)
    exact_mod_cast hlt
  have hsize : nearest n = n := nearest_natCast (by exact_mod_cast hlimitq)
  have hone : 1 ≤ ⌈(a : ℚ) / b * n⌉₊ := Nat.ceil_pos.mpr hpos
  have htop : ⌈(a : ℚ) / b * n⌉₊ ≤ n := Nat.ceil_le.mpr hle
  have hrank : rank p n = ⌈(a : ℚ) / b * n⌉₊ := by
    unfold rank
    dsimp only
    rw [hsize, floor_succ_eq_ceil hypos.le (hyle.trans_lt hlimitq), hcast,
      if_neg (Nat.not_lt.mpr hone), if_neg (Nat.not_lt.mpr htop)]
  rw [hrank]
  exact ⟨rfl, hone, htop⟩

/-! ### Nearest ranks -/

/-- `v` is the smallest of the values that has at least the fraction `q` of them below or at it. -/
structure IsNearestRank (q : ℚ) (values : List ℕ) (v : ℕ) : Prop where
  mem : v ∈ values
  enough : q * values.length ≤ values.countP (· ≤ v)
  least : values.countP (· < v) < q * values.length

/-- The order of the values does not matter. -/
theorem IsNearestRank.of_perm {q : ℚ} {values values' : List ℕ} {v : ℕ}
    (h : IsNearestRank q values v) (hperm : values.Perm values') : IsNearestRank q values' v where
  mem := hperm.mem_iff.mp h.mem
  enough := by
    rw [← hperm.length_eq, ← hperm.countP_eq]
    exact h.enough
  least := by
    rw [← hperm.length_eq, ← hperm.countP_eq]
    exact h.least

/-- A larger fraction has a larger percentile. -/
theorem IsNearestRank.mono {q q' : ℚ} {values : List ℕ} {v v' : ℕ}
    (h : IsNearestRank q values v) (h' : IsNearestRank q' values v') (hq : q ≤ q') : v ≤ v' := by
  by_contra hlt
  rw [not_le] at hlt
  -- all that is at most `v'` is smaller than `v`
  have hcount : values.countP (· ≤ v') ≤ values.countP (· < v) := by
    refine List.countP_mono_left fun w _ hw => ?_
    exact decide_eq_true ((of_decide_eq_true hw).trans_lt hlt)
  have hcast : (values.countP (· ≤ v') : ℚ) ≤ values.countP (· < v) := by exact_mod_cast hcount
  have hlen : q * values.length ≤ q' * values.length :=
    mul_le_mul_of_nonneg_right hq (Nat.cast_nonneg _)
  have henough := h'.enough
  have hleast := h.least
  linarith

section Sorted

variable {values : List ℕ} (hsorted : values.Pairwise (· ≤ ·)) {i : ℕ} (hi : i < values.length)
include hsorted

/-- In a sorted list the first `i + 1` values are at most the value at `i`. -/
theorem succ_le_countP : i + 1 ≤ values.countP (· ≤ values[i]) := by
  have hall : (values.take (i + 1)).countP (· ≤ values[i]) = (values.take (i + 1)).length := by
    refine List.countP_eq_length.mpr fun v hv => decide_eq_true ?_
    obtain ⟨j, hj, rfl⟩ := List.getElem_of_mem hv
    rw [List.length_take] at hj
    rw [List.getElem_take]
    rcases (show j ≤ i by omega).lt_or_eq with hlt | rfl
    · exact List.pairwise_iff_getElem.mp hsorted j i (by omega) hi hlt
    · exact le_rfl
  have hsub := (List.take_sublist (i + 1) values).countP_le (p := (· ≤ values[i]))
  rw [hall, List.length_take] at hsub
  omega

/-- From place `i` on they are at least that. -/
theorem countP_lt_le : values.countP (· < values[i]) ≤ i := by
  have hnone : (values.drop i).countP (· < values[i]) = 0 := by
    refine List.countP_eq_zero.mpr fun v hv hlt => ?_
    obtain ⟨j, hj, rfl⟩ := List.getElem_of_mem hv
    rw [List.length_drop] at hj
    rw [List.getElem_drop] at hlt
    have hle : values[i] ≤ values[i + j] := by
      rcases Nat.eq_zero_or_pos j with rfl | hpos
      · exact le_rfl
      · exact List.pairwise_iff_getElem.mp hsorted i (i + j) hi (by omega) (by omega)
    exact absurd (of_decide_eq_true hlt) (Nat.not_lt.mpr hle)
  have hsplit : values.countP (· < values[i]) =
      (values.take i).countP (· < values[i]) + (values.drop i).countP (· < values[i]) := by
    rw [← List.countP_append, List.take_append_drop]
  have hfew := List.countP_le_length (p := (· < values[i])) (l := values.take i)
  rw [List.length_take] at hfew
  omega

end Sorted

/-- **The value at the rank is the nearest-rank percentile.** -/
theorem valueAt_isNearestRank {p : ℚ} {a b : ℕ} (h : Level p a b) {values : List ℕ}
    (hsorted : values.Pairwise (· ≤ ·)) (hne : values ≠ [])
    (hlimit : values.length ≤ kSampleLimit) :
    IsNearestRank ((a : ℚ) / b) values (valueAt values p) := by
  obtain ⟨hrank, hone, htop⟩ := rank_eq h (List.length_pos_iff.mpr hne) hlimit
  have hi : rank p values.length - 1 < values.length := by omega
  have hceil : (rank p values.length : ℚ) - 1 < (a : ℚ) / b * values.length ∧
      (a : ℚ) / b * values.length ≤ rank p values.length := by
    rw [hrank]
    have hlt := Nat.ceil_lt_add_one (a := (a : ℚ) / b * values.length) (by positivity)
    exact ⟨by linarith, Nat.le_ceil _⟩
  rw [valueAt, List.getD_eq_getElem _ _ hi]
  refine ⟨List.getElem_mem _, ?_, ?_⟩
  · have hcount := succ_le_countP hsorted hi
    rw [Nat.sub_add_cancel hone] at hcount
    exact hceil.2.trans (by exact_mod_cast hcount)
  · have hcount := countP_lt_le hsorted hi
    refine lt_of_le_of_lt ?_ hceil.1
    rw [le_sub_iff_add_le]
    have hsucc : values.countP (· < values[rank p values.length - 1]) + 1 ≤
        rank p values.length := by omega
    exact_mod_cast hsucc

section Sample

variable {sample : List ℕ} (hne : sample ≠ [])
include hne

theorem mergeSort_ne_nil : sample.mergeSort ≠ [] :=
  fun hnil => hne (List.Perm.nil_eq (hnil ▸ List.mergeSort_perm sample _)).symm

/-- The same for a sample, which is sorted first. -/
theorem valueAt_mergeSort {p : ℚ} {a b : ℕ} (h : Level p a b)
    (hlimit : sample.length ≤ kSampleLimit) :
    IsNearestRank ((a : ℚ) / b) sample (valueAt sample.mergeSort p) := by
  have hperm : sample.mergeSort.Perm sample := List.mergeSort_perm _ _
  have hsorted : sample.mergeSort.Pairwise (· ≤ ·) := List.pairwise_mergeSort' _ _
  refine (valueAt_isNearestRank h hsorted (mergeSort_ne_nil hne) ?_).of_perm hperm
  rw [hperm.length_eq]
  exact hlimit

theorem percentile_isNearestRank {p : ℚ} {a b : ℕ} (h : Level p a b)
    (hlimit : sample.length ≤ kSampleLimit) :
    IsNearestRank ((a : ℚ) / b) sample (percentile sample.mergeSort p) := by
  rw [percentile, if_neg (mergeSort_ne_nil hne)]
  exact valueAt_mergeSort hne h hlimit

end Sample

/-! ### The report -/

/-- Up to the limit every latency is kept. -/
theorem latencies_eq {records : List Sample} (hlimit : records.length ≤ kSampleLimit) :
    (Accumulator.recordAll records).latencies = lats records := by
  induction records using List.reverseRecOn with
  | nil => rfl
  | append_singleton records r ih =>
    rw [List.length_append, List.length_singleton] at hlimit
    have hbefore := ih (Nat.le_of_succ_le hlimit)
    have hroom : (Accumulator.recordAll records).latencies.length < kSampleLimit := by
      rw [hbefore, lats, List.length_map]
      exact hlimit
    rw [Accumulator.recordAll_concat]
    change sample _ _ _ = _
    rw [sample, if_pos hroom, hbefore, lats, lats, List.map_append]
    rfl

/-- The sample is not empty after a record. -/
theorem latencies_ne_nil {records : List Sample} (hne : records ≠ []) :
    (Accumulator.recordAll records).latencies ≠ [] := by
  cases records using List.reverseRecOn with
  | nil => exact absurd rfl hne
  | append_singleton records r =>
    rw [Accumulator.recordAll_concat]
    change sample _ _ _ ≠ []
    unfold sample
    split
    · exact List.append_ne_nil_of_right_ne_nil _ (List.cons_ne_nil _ _)
    next hfull =>
    have hsome : (Accumulator.recordAll records).latencies ≠ [] := by
      intro hnil
      rw [hnil] at hfull
      exact hfull (by decide)
    dsimp only
    split
    · refine List.ne_nil_of_length_pos ?_
      rw [List.length_set]
      exact List.length_pos_iff.mpr hsome
    · exact hsome

/-- **The percentiles of a report are exact.** After any records the percentiles an accumulator
reports are the nearest-rank percentiles of its sample for the levels 1, 50, 99, 99.9 and 99.99
percent, although ranks are computed in doubles; up to 65536 records the sample is all there is.
They are in order, between the smallest and the largest latency. -/
theorem percentiles_exact (records : List Sample) (hne : records ≠ [])
    (hcount : records.length < 2 ^ 64) :
    let A := Accumulator.recordAll records
    let r := A.percentiles
    (IsNearestRank (1 / 100) A.latencies r.p01 ∧ IsNearestRank (1 / 2) A.latencies r.p50 ∧
      IsNearestRank (99 / 100) A.latencies r.p99 ∧
      IsNearestRank (999 / 1000) A.latencies r.p999 ∧
      IsNearestRank (9999 / 10000) A.latencies r.p9999) ∧
    (records.length ≤ kSampleLimit → A.latencies = lats records) ∧
    A.report.latMin.toNat ≤ r.p01 ∧ r.p01 ≤ r.p50 ∧ r.p50 ≤ r.p99 ∧ r.p99 ≤ r.p999 ∧
      r.p999 ≤ r.p9999 ∧ r.p9999 ≤ A.report.latMax.toNat := by
  intro A r
  have hsum : Summarizes A records := .recordAll hcount.le
  have hreceived : A.received ≠ 0 := by
    intro hzero
    have hlen := hsum.received_toNat hcount
    rw [hzero] at hlen
    exact hne (List.eq_nil_of_length_eq_zero hlen.symm)
  have hr : r = A.percentiles := rfl
  rw [Accumulator.percentiles, if_neg hreceived] at hr
  have hat : ∀ {p : ℚ} {a b : ℕ}, Level p a b →
      IsNearestRank ((a : ℚ) / b) A.latencies (percentile A.latencies.mergeSort p) :=
    fun h => percentile_isNearestRank (latencies_ne_nil hne) h hsum.bounded
  have h01 : IsNearestRank (1 / 100) A.latencies r.p01 := by
    rw [hr]
    exact_mod_cast hat level01
  have h50 : IsNearestRank (1 / 2) A.latencies r.p50 := by
    rw [hr]
    exact_mod_cast hat level50
  have h99 : IsNearestRank (99 / 100) A.latencies r.p99 := by
    rw [hr]
    exact_mod_cast hat level99
  have h999 : IsNearestRank (999 / 1000) A.latencies r.p999 := by
    rw [hr]
    exact_mod_cast hat level999
  have h9999 : IsNearestRank (9999 / 10000) A.latencies r.p9999 := by
    rw [hr]
    exact_mod_cast hat level9999
  have hbetween := hsum.sampled_between hcount
  exact ⟨⟨h01, h50, h99, h999, h9999⟩, latencies_eq, (hbetween _ h01.mem).1,
    h01.mono h50 (by norm_num), h50.mono h99 (by norm_num), h99.mono h999 (by norm_num),
    h999.mono h9999 (by norm_num), (hbetween _ h9999.mem).2⟩

/-- The median of three latencies is the second. -/
theorem median_of_three :
    (Accumulator.recordAll [(1, 30), (2, 10), (3, 20)]).percentiles.p50 = 20 := by
  obtain ⟨⟨-, h50, -⟩, hall, -⟩ := percentiles_exact [(1, 30), (2, 10), (3, 20)]
    (List.cons_ne_nil _ _) (by decide)
  rw [hall (by decide)] at h50
  have hsecond : IsNearestRank (1 / 2) (lats [(1, 30), (2, 10), (3, 20)]) 20 := by
    refine ⟨by decide, ?_, ?_⟩
    · have hcount : (lats [(1, 30), (2, 10), (3, 20)]).countP (· ≤ 20) = 2 := by decide
      rw [hcount]
      norm_num [lats]
    · have hcount : (lats [(1, 30), (2, 10), (3, 20)]).countP (· < 20) = 1 := by decide
      rw [hcount]
      norm_num [lats]
  exact le_antisymm (h50.mono hsecond le_rfl) (hsecond.mono h50 le_rfl)

end Metrics

/-! ### The other summaries -/

namespace Fec

open Framework

/-- `fec::RecoveryStats` -/
structure RecoveryStats where
  p50 : ℕ := 0
  p99 : ℕ := 0
  p999 : ℕ := 0
  p9999 : ℕ := 0
  max : ℕ := 0

/-- `percentile` of `fec.h`, which is not called without values. -/
def percentile (values : List ℕ) (p : ℚ) : ℕ := Metrics.valueAt values p

/-- `recovery_stats_for` -/
def recoveryStatsFor (source : List ℕ) : RecoveryStats :=
  if source = [] then {}
  else
    let values := source.mergeSort
    { p50 := percentile values (Binary64.nearest 0.50)
      p99 := percentile values (Binary64.nearest 0.99)
      p999 := percentile values (Binary64.nearest 0.999)
      p9999 := percentile values (Binary64.nearest 0.9999)
      max := values.getLastD 0 }

/-- The recovery latencies are summarized by the same ranks. -/
theorem recoveryStatsFor_isNearestRank {source : List ℕ} (hne : source ≠ [])
    (hlimit : source.length ≤ Metrics.kSampleLimit) :
    let stats := recoveryStatsFor source
    Metrics.IsNearestRank (1 / 2) source stats.p50 ∧
      Metrics.IsNearestRank (99 / 100) source stats.p99 ∧
      Metrics.IsNearestRank (999 / 1000) source stats.p999 ∧
      Metrics.IsNearestRank (9999 / 10000) source stats.p9999 := by
  intro stats
  have hstats : stats = recoveryStatsFor source := rfl
  rw [recoveryStatsFor, if_neg hne] at hstats
  rw [hstats]
  refine ⟨?_, ?_, ?_, ?_⟩
  · exact_mod_cast Metrics.valueAt_mergeSort hne Metrics.level50 hlimit
  · exact_mod_cast Metrics.valueAt_mergeSort hne Metrics.level99 hlimit
  · exact_mod_cast Metrics.valueAt_mergeSort hne Metrics.level999 hlimit
  · exact_mod_cast Metrics.valueAt_mergeSort hne Metrics.level9999 hlimit

end Fec

namespace Sender

open Framework

/-- `Distribution` -/
structure Distribution where
  p50 : ℕ := 0
  p99 : ℕ := 0
  max : ℕ := 0

/-- `distribution` -/
def distribution (values : List ℕ) : Distribution :=
  if values = [] then {}
  else
    let values := values.mergeSort
    { p50 := Metrics.valueAt values (Binary64.nearest 0.50)
      p99 := Metrics.valueAt values (Binary64.nearest 0.99)
      max := values.getLastD 0 }

/-- So are the intervals between the messages of a generation. -/
theorem distribution_isNearestRank {values : List ℕ} (hne : values ≠ [])
    (hlimit : values.length ≤ Metrics.kSampleLimit) :
    Metrics.IsNearestRank (1 / 2) values (distribution values).p50 ∧
      Metrics.IsNearestRank (99 / 100) values (distribution values).p99 := by
  rw [distribution, if_neg hne]
  constructor
  · exact_mod_cast Metrics.valueAt_mergeSort hne Metrics.level50 hlimit
  · exact_mod_cast Metrics.valueAt_mergeSort hne Metrics.level99 hlimit

end Sender
end PulseFanout
