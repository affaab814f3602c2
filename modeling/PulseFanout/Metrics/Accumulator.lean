import Mathlib.Order.Bounds.Basic
import Mathlib.Order.Lattice.Nat
import PulseFanout.Framework.Missing
import PulseFanout.Metrics.Samples

/-!
# Delivery metrics (`metrics.h`)

An `Accumulator` counts records, remembers the smallest and the largest sequence number and latency
and keeps a bounded sample of the latencies. `Summarizes` says what these values are of the list of
records, in terms of least and greatest elements, so that the order of the records does not come
into it. `report` derives from three of them how many numbers are missing: with no number twice that
is the size of the range less the count, which is exact (`report_exact`).

The percentiles of the sample are in `Metrics.Percentile`. The mean, a floating-point quotient that
nothing else depends on, is left out.
-/

namespace PulseFanout
namespace Metrics

open Framework

/-- A call of `record`: a sequence number and a latency. -/
abbrev Sample := BitVec 64 × BitVec 64

/-- `metrics::Accumulator` -/
structure Accumulator where
  min : BitVec 64 := BitVec.allOnes 64
  max : BitVec 64 := 0
  received : BitVec 64 := 0
  firstSeq : BitVec 64 := 0
  lastSeq : BitVec 64 := 0
  latencies : List ℕ := []

/-- `metrics::Report` -/
structure Report where
  received : BitVec 64 := 0
  expected : BitVec 64 := 0
  dropped : BitVec 64 := 0
  latMin : BitVec 64 := 0
  latMax : BitVec 64 := 0
deriving DecidableEq

namespace Accumulator

/-- `record` -/
def record (A : Accumulator) (seqId latencyNs : BitVec 64) : Accumulator :=
  let received := A.received + 1
  { firstSeq := if A.received = 0 then seqId else if seqId < A.firstSeq then seqId else A.firstSeq
    lastSeq := if A.received = 0 then seqId else if A.lastSeq < seqId then seqId else A.lastSeq
    received := received
    latencies := sample A.latencies latencyNs.toNat received.toNat
    min := if latencyNs < A.min then latencyNs else A.min
    max := if A.max < latencyNs then latencyNs else A.max }

/-- `report` -/
def report (A : Accumulator) : Report :=
  if A.received = 0 then { received := A.received }
  else
    let expected := A.lastSeq - A.firstSeq + 1
    { received := A.received
      expected
      dropped := if A.received < expected then expected - A.received else 0
      latMin := A.min
      latMax := A.max }

/-- The records one after the other. -/
def recordAll (records : List Sample) : Accumulator :=
  records.foldl (fun A r => A.record r.1 r.2) {}

theorem recordAll_concat (records : List Sample) (r : Sample) :
    recordAll (records ++ [r]) = (recordAll records).record r.1 r.2 := by
  rw [recordAll, List.foldl_append]
  rfl

end Accumulator

/-! ### What an accumulator says of its records -/

/-- The sequence numbers and the latencies, as numbers. -/
def seqs (records : List Sample) : List ℕ := records.map fun r => r.1.toNat

def lats (records : List Sample) : List ℕ := records.map fun r => r.2.toNat

/-- `A` has recorded `records`. -/
structure Summarizes (A : Accumulator) (records : List Sample) : Prop where
  received : A.received = BitVec.ofNat 64 records.length
  first : records ≠ [] → IsLeast {n | n ∈ seqs records} A.firstSeq.toNat
  last : records ≠ [] → IsGreatest {n | n ∈ seqs records} A.lastSeq.toNat
  /-- The initial values of the two are no latencies, but bounds of all. -/
  min : IsLeast ({2 ^ 64 - 1} ∪ {n | n ∈ lats records}) A.min.toNat
  max : IsGreatest ({0} ∪ {n | n ∈ lats records}) A.max.toNat
  bounded : A.latencies.length ≤ kSampleLimit
  sampled : ∀ v ∈ A.latencies, v ∈ lats records

theorem mem_concat (l : List ℕ) (x : ℕ) : {n | n ∈ l ++ [x]} = {n | n ∈ l} ∪ {x} := by
  ext n
  exact List.mem_append.trans (or_congr Iff.rfl List.mem_singleton)

/-- What `sample` keeps was there or is new. -/
theorem mem_sample {values : List ℕ} {value seen v : ℕ} (h : v ∈ sample values value seen) :
    v ∈ values ∨ v = value := by
  unfold sample at h
  split at h
  · rcases List.mem_append.mp h with h | h
    · exact .inl h
    · exact .inr (List.mem_singleton.mp h)
  · dsimp only at h
    split at h
    · exact List.mem_or_eq_of_mem_set h
    · exact .inl h

theorem toNat_min (a b : BitVec 64) : (if b < a then b else a).toNat = min a.toNat b.toNat := by
  split
  · next h => exact (min_eq_right (BitVec.lt_def.mp h).le).symm
  · next h => exact (min_eq_left (Nat.le_of_not_lt fun hlt => h (BitVec.lt_def.mpr hlt))).symm

theorem toNat_max (a b : BitVec 64) : (if a < b then b else a).toNat = max a.toNat b.toNat := by
  split
  · next h => exact (max_eq_right (BitVec.lt_def.mp h).le).symm
  · next h => exact (max_eq_left (Nat.le_of_not_lt fun hlt => h (BitVec.lt_def.mpr hlt))).symm

namespace Summarizes

variable {A A' : Accumulator} {records records' : List Sample}

theorem start : Summarizes {} [] where
  received := rfl
  first := fun hne => absurd rfl hne
  last := fun hne => absurd rfl hne
  min := by
    have hnone : {n | n ∈ lats []} = ∅ := by
      ext n
      simp [lats]
    rw [hnone, Set.union_empty]
    exact isLeast_singleton
  max := by
    have hnone : {n | n ∈ lats []} = ∅ := by
      ext n
      simp [lats]
    rw [hnone, Set.union_empty]
    exact isGreatest_singleton
  bounded := Nat.zero_le _
  sampled := fun _ hv => absurd hv List.not_mem_nil

/-- **One more record.** The counter is nonzero after the first, as long as it does not wrap. -/
theorem record (h : Summarizes A records) (hcount : records.length < 2 ^ 64) (r : Sample) :
    Summarizes (A.record r.1 r.2) (records ++ [r]) := by
  -- the code tells the first record by the counter, so the counter must not have wrapped
  have hzero : A.received = 0 ↔ records = [] := by
    rw [h.received, ← BitVec.toNat_inj, BitVec.toNat_ofNat, Nat.mod_eq_of_lt hcount]
    exact List.length_eq_zero_iff
  have hseqs : seqs (records ++ [r]) = seqs records ++ [r.1.toNat] := List.map_append
  have hlats : lats (records ++ [r]) = lats records ++ [r.2.toNat] := List.map_append
  refine ⟨?_, fun _ => ?_, fun _ => ?_, ?_, ?_, ?_, ?_⟩
  · show A.received + 1 = _
    rw [h.received, List.length_append, List.length_singleton, BitVec.ofNat_add]
    rfl
  · show IsLeast _ (if A.received = 0 then r.1 else if r.1 < A.firstSeq then r.1
      else A.firstSeq).toNat
    rw [hseqs, mem_concat]
    -- the first record sets the number, a later one lowers it
    split
    · next hfirst =>
      rw [hzero.mp hfirst]
      simp [seqs, IsLeast, lowerBounds]
    · next hmore =>
      rw [toNat_min]
      exact (h.first fun hnil => hmore (hzero.mpr hnil)).union isLeast_singleton
  · show IsGreatest _ (if A.received = 0 then r.1 else if A.lastSeq < r.1 then r.1
      else A.lastSeq).toNat
    rw [hseqs, mem_concat]
    split
    · next hfirst =>
      rw [hzero.mp hfirst]
      simp [seqs, IsGreatest, upperBounds]
    · next hmore =>
      rw [toNat_max]
      exact (h.last fun hnil => hmore (hzero.mpr hnil)).union isGreatest_singleton
  -- the latencies start from the neutral elements, so no case is split off
  · show IsLeast _ (if r.2 < A.min then r.2 else A.min).toNat
    rw [hlats, mem_concat, ← Set.union_assoc, toNat_min]
    exact h.min.union isLeast_singleton
  · show IsGreatest _ (if A.max < r.2 then r.2 else A.max).toNat
    rw [hlats, mem_concat, ← Set.union_assoc, toNat_max]
    exact h.max.union isGreatest_singleton
  · exact sample_length_le _ _ h.bounded
  · intro v hv
    rw [hlats, List.mem_append, List.mem_singleton]
    exact (mem_sample hv).imp_left (h.sampled v)

theorem recordAll (hcount : records.length ≤ 2 ^ 64) :
    Summarizes (Accumulator.recordAll records) records := by
  induction records using List.reverseRecOn with
  | nil => exact start
  | append_singleton records r ih =>
    rw [List.length_append, List.length_singleton] at hcount
    rw [Accumulator.recordAll_concat]
    exact (ih (Nat.le_of_succ_le hcount)).record hcount r

/-! ### Reports -/

theorem received_toNat (h : Summarizes A records) (hcount : records.length < 2 ^ 64) :
    A.received.toNat = records.length := by
  rw [h.received, BitVec.toNat_ofNat, Nat.mod_eq_of_lt hcount]

/-- **The report of an accumulator is exact** if no number was recorded twice. -/
theorem report_exact (h : Summarizes A records) (hnodup : (seqs records).Nodup)
    (hspan : span (seqs records) < 2 ^ 64) :
    A.report.received.toNat = records.length ∧ A.report.expected.toNat = span (seqs records) ∧
      A.report.dropped.toNat = (lost (seqs records)).card := by
  have hlost := card_lost hnodup
  have hlength : (seqs records).length = records.length := List.length_map _
  have hcount : records.length < 2 ^ 64 := by omega
  have hreceived := h.received_toNat hcount
  unfold Accumulator.report
  split
  · next hzero =>
    -- nothing was recorded, and nothing is reported
    have hnil : records = [] := by
      rw [hzero] at hreceived
      exact List.eq_nil_of_length_eq_zero hreceived.symm
    rw [hnil] at hreceived ⊢
    exact ⟨hreceived, rfl, rfl⟩
  next hsome =>
  have hne : records ≠ [] := by
    rintro rfl
    exact hsome h.received
  have hleast := h.first hne
  have hgreatest := h.last hne
  have hspan_eq := span_eq hleast hgreatest
  have hle : A.firstSeq.toNat ≤ A.lastSeq.toNat := hgreatest.2 hleast.1
  have hexpected : (A.lastSeq - A.firstSeq + 1).toNat = span (seqs records) := by
    rw [BitVec.toNat_add, BitVec.toNat_sub_of_le (BitVec.le_def.mpr hle), hspan_eq]
    change (_ + 1) % 2 ^ 64 = _
    omega
  refine ⟨hreceived, hexpected, ?_⟩
  dsimp only
  split
  · next hless =>
    rw [BitVec.toNat_sub_of_le (BitVec.le_of_lt hless), hexpected, hreceived]
    omega
  · next hall =>
    rw [BitVec.lt_def, hexpected, hreceived] at hall
    show 0 = _
    omega

/-- **The order of the records does not show in a report**, nor which number had which latency. -/
theorem report_eq_of_perm (h : Summarizes A records) (h' : Summarizes A' records')
    (hnumbers : (seqs records).Perm (seqs records'))
    (htimes : (lats records).Perm (lats records')) :
    A.report = A'.report := by
  have hseqs : {n | n ∈ seqs records} = {n | n ∈ seqs records'} := by
    ext n
    exact hnumbers.mem_iff
  have hlats : {n | n ∈ lats records} = {n | n ∈ lats records'} := by
    ext n
    exact htimes.mem_iff
  have hlength : records.length = records'.length := by
    have heq := hnumbers.length_eq
    rwa [seqs, seqs, List.length_map, List.length_map] at heq
  have hreceived : A.received = A'.received := by
    rw [h.received, h'.received, hlength]
  have hmin : A.min = A'.min := by
    have hleast := h.min
    rw [hlats] at hleast
    exact BitVec.eq_of_toNat_eq (hleast.unique h'.min)
  have hmax : A.max = A'.max := by
    have hgreatest := h.max
    rw [hlats] at hgreatest
    exact BitVec.eq_of_toNat_eq (hgreatest.unique h'.max)
  -- a report reads the extremes only, and these belong to the sets of values
  unfold Accumulator.report
  rw [← hreceived]
  split
  · rfl
  next hsome =>
  have hne : records ≠ [] := by
    rintro rfl
    exact hsome h.received
  have hne' : records' ≠ [] := by
    rintro rfl
    exact hne (List.eq_nil_of_length_eq_zero hlength)
  have hfirst : A.firstSeq = A'.firstSeq := by
    have hleast := h.first hne
    rw [hseqs] at hleast
    exact BitVec.eq_of_toNat_eq (hleast.unique (h'.first hne'))
  have hlast : A.lastSeq = A'.lastSeq := by
    have hgreatest := h.last hne
    rw [hseqs] at hgreatest
    exact BitVec.eq_of_toNat_eq (hgreatest.unique (h'.last hne'))
  rw [hmin, hmax, hfirst, hlast]

/-- What is sampled lies between the extremes that are reported. -/
theorem sampled_between (h : Summarizes A records) (hcount : records.length < 2 ^ 64) :
    ∀ v ∈ A.latencies, A.report.latMin.toNat ≤ v ∧ v ≤ A.report.latMax.toNat := by
  intro v hv
  have hmem : v ∈ lats records := h.sampled v hv
  unfold Accumulator.report
  split
  · next hzero =>
    -- without records there are no samples
    have hlength := h.received_toNat hcount
    rw [hzero] at hlength
    rw [List.eq_nil_of_length_eq_zero hlength.symm] at hmem
    exact absurd hmem List.not_mem_nil
  · exact ⟨h.min.2 (.inr hmem), h.max.2 (.inr hmem)⟩

end Summarizes

end Metrics
end PulseFanout
