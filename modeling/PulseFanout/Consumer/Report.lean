import Mathlib.Algebra.BigOperators.Group.List.Basic
import Mathlib.Data.BitVec
import PulseFanout.Framework.Registry
import PulseFanout.Metrics.Accumulator
import PulseFanout.Receiver.Multiplex

/-!
# The consumer and its report (`consumer.cpp`)

The consumer reads frames off a ring, takes the time each has been under way, and keeps one
accumulator for every stream it meets, up to 256 of them, and one more for all frames together. At
the end it prints the report of the latter, with the numbers of expected and dropped frames summed
over the streams.

`consume` is the loop, over what `ring.read` and the clocks answer. `Kept` says what the
accumulators have recorded: each that of its own stream. With no number of a stream recorded twice
the report is exact, and it does not depend on the order of the records (`drop_report_exact`).
-/

namespace PulseFanout
namespace Consumer

open Framework Msg Multiplex Metrics

/-! ### The loop -/

structure Config where
  count : ℕ := 0
  skip : ℕ := 0

/-- What `ring.read` answers, with the time a frame is received. -/
inductive Read
  /-- `kOk`; no frame if the bytes have not the length of a record. -/
  | ok (frame : Option Native) (recvTs : BitVec 64)
  | lapped (resume : ℕ)
  | corrupt
  /-- `kEmpty`, and whether the ring has been idle for `idle_ms`. -/
  | empty (idle : Bool)

/-- A frame as it is recorded. -/
structure Record where
  identity : Key
  seqId : BitVec 64
  latency : BitVec 64
deriving DecidableEq

/-- `make_pair(hdr->stream_id, hdr->stream_epoch)`, and the latency, which is not negative. -/
def recordOf (m : Native) (recvTs : BitVec 64) : Record where
  identity := ⟨m.header.streamId, m.header.streamEpoch⟩
  seqId := m.header.seqId
  latency := if m.header.sendTsNs < recvTs then recvTs - m.header.sendTsNs else 0

/-- The variables of `run`; `recorded` is history. -/
structure State where
  acc : Accumulator := {}
  streamMetrics : Registry Key Accumulator 256 := .empty
  readIndex : ℕ := 0
  received : ℕ := 0
  skipped : ℕ := 0
  lappedEvents : ℕ := 0
  recorded : List Record := []

/-- Why `run` returns from within its loop. -/
inductive Exit
  | invalidFrame
  | streamLimit
  | corrupt
deriving DecidableEq

/-- A new stream is admitted while there are fewer than 256. -/
def State.record (S : State) (r : Record) : Option State :=
  if hroom : r.identity ∈ S.streamMetrics.keys ∨ S.streamMetrics.size < 256 then
    let stream := (S.streamMetrics.find r.identity).getD {}
    some { S with
      streamMetrics := S.streamMetrics.set r.identity (stream.record r.seqId r.latency) hroom
      acc := S.acc.record (BitVec.ofNat 64 (S.received + 1)) r.latency
      received := S.received + 1
      readIndex := S.readIndex + 1
      recorded := S.recorded ++ [r] }
  else none

/-- The loop; after the last answer a stop is requested. -/
def consume (cfg : Config) : List Read → State → State × Option Exit
  | [], S => (S, none)
  | read :: reads, S =>
    if cfg.count ≠ 0 ∧ cfg.count ≤ S.received then (S, none)
    else
      match read with
      | .ok none _ => (S, some .invalidFrame)
      | .ok (some m) recvTs =>
        if !validateFrame m.header m.size then (S, some .invalidFrame)
        else if S.skipped < cfg.skip then
          consume cfg reads { S with skipped := S.skipped + 1, readIndex := S.readIndex + 1 }
        else
          match S.record (recordOf m recvTs) with
          | none => (S, some .streamLimit)
          | some S => consume cfg reads S
      | .lapped resume =>
        consume cfg reads { S with lappedEvents := S.lappedEvents + 1, readIndex := resume }
      | .corrupt => (S, some .corrupt)
      | .empty idle => if idle then (S, none) else consume cfg reads S

/-- The report that is printed. -/
def State.report (S : State) : Report :=
  { S.acc.report with
    expected := (S.streamMetrics.entries.map fun item => item.2.report.expected).sum
    dropped := (S.streamMetrics.entries.map fun item => item.2.report.dropped).sum }

/-- `run`, from `read_index` on: the report, unless the loop returns, and the exit status. -/
def run (cfg : Config) (readIndex : ℕ) (reads : List Read) : Option Report × ℕ :=
  match consume cfg reads { readIndex := readIndex } with
  | (_, some _) => (none, 1)
  | (S, none) => (some S.report, if cfg.count ≠ 0 ∧ S.received < cfg.count then 1 else 0)

/-! ### What has been recorded -/

/-- The records of one stream. -/
def ofStream (identity : Key) (records : List Record) : List Sample :=
  (records.filter fun r => r.identity = identity).map fun r => (r.seqId, r.latency)

/-- The records as the accumulator of all frames sees them: numbered from one. -/
def numbered (records : List Record) : List Sample :=
  records.zipIdx.map fun r => (BitVec.ofNat 64 (r.2 + 1), r.1.latency)

/-- The streams that have records. -/
def identities (records : List Record) : List Key := (records.map Record.identity).dedup

/-- The accumulators have recorded what they should. -/
structure Kept (S : State) : Prop where
  received : S.received = S.recorded.length
  acc : S.acc = .recordAll (numbered S.recorded)
  keys : ∀ key, key ∈ S.streamMetrics.keys ↔ key ∈ S.recorded.map Record.identity
  streams : ∀ key ∈ S.streamMetrics.keys,
    S.streamMetrics.find key = some (.recordAll (ofStream key S.recorded))

theorem ofStream_concat (identity : Key) (records : List Record) (r : Record) :
    ofStream identity (records ++ [r]) = ofStream identity records ++
      if r.identity = identity then [(r.seqId, r.latency)] else [] := by
  rw [ofStream, List.filter_append, List.map_append, ← ofStream, List.filter_singleton]
  by_cases h : r.identity = identity
  · rw [decide_eq_true h, if_pos h]
    rfl
  · rw [decide_eq_false h, if_neg h]
    rfl

theorem ofStream_of_notMem {identity : Key} {records : List Record}
    (h : identity ∉ records.map Record.identity) : ofStream identity records = [] := by
  rw [ofStream, List.map_eq_nil_iff, List.filter_eq_nil_iff]
  intro r hr heq
  exact h (List.mem_map.mpr ⟨r, hr, of_decide_eq_true heq⟩)

theorem numbered_concat (records : List Record) (r : Record) :
    numbered (records ++ [r]) =
      numbered records ++ [(BitVec.ofNat 64 (records.length + 1), r.latency)] := by
  rw [numbered, List.zipIdx_append, List.map_append, ← numbered]
  simp

namespace Kept

theorem start (readIndex : ℕ) : Kept { readIndex := readIndex } where
  received := rfl
  acc := rfl
  keys := fun _ => Iff.rfl
  streams := fun _ hkey => absurd hkey List.not_mem_nil

variable {S S' : State}

/-- **One more frame.** -/
theorem record (h : Kept S) {r : Record} (hrecord : S.record r = some S') : Kept S' := by
  unfold State.record at hrecord
  split at hrecord
  swap
  · cases hrecord
  next hroom =>
  cases hrecord
  have hstream : (S.streamMetrics.find r.identity).getD {} =
      .recordAll (ofStream r.identity S.recorded) := by
    by_cases hold : r.identity ∈ S.streamMetrics.keys
    · rw [h.streams _ hold]
      rfl
    · -- a new stream has no records so far
      rw [S.streamMetrics.find_eq_none.mpr hold,
        ofStream_of_notMem fun hmem => hold ((h.keys _).mpr hmem)]
      rfl
  refine ⟨?_, ?_, ?_, ?_⟩
  · dsimp only
    rw [List.length_append, List.length_singleton, h.received]
  · dsimp only
    rw [numbered_concat, Accumulator.recordAll_concat, h.acc, h.received]
  · intro key
    dsimp only
    rw [Registry.mem_keys_set, List.map_append, List.mem_append, h.keys]
    exact or_congr Iff.rfl List.mem_singleton.symm
  · intro key hkey
    dsimp only at hkey ⊢
    rw [hstream, ofStream_concat]
    by_cases hsame : r.identity = key
    · rw [← hsame, Registry.find_set, if_pos rfl, Accumulator.recordAll_concat]
    · rw [Registry.mem_keys_set] at hkey
      rw [Registry.find_set_ne _ _ (Ne.symm hsame), if_neg hsame, List.append_nil]
      exact h.streams key (hkey.resolve_right (Ne.symm hsame))

end Kept

/-! ### The loop keeps it -/

/-- A frame that passes `validate_frame`, a lap or nothing. -/
def Read.Valid : Read → Prop
  | .ok (some m) _ => validateFrame m.header m.size = true
  | .ok none _ => False
  | .lapped _ => True
  | .corrupt => False
  | .empty _ => True

/-- The stream of a frame. -/
def Read.identity : Read → Option Key
  | .ok (some m) recvTs => some (recordOf m recvTs).identity
  | _ => none

/-- There is room for a stream that is one of at most 256. -/
theorem exists_record {S : State} {streams : Finset Key} (hstreams : streams.card ≤ 256)
    (hkeys : ∀ key ∈ S.streamMetrics.keys, key ∈ streams) {r : Record}
    (hr : r.identity ∈ streams) : ∃ S', S.record r = some S' := by
  have hroom : r.identity ∈ S.streamMetrics.keys ∨ S.streamMetrics.size < 256 := by
    by_cases hold : r.identity ∈ S.streamMetrics.keys
    · exact .inl hold
    · -- the keys and this one are different members of `streams`
      refine .inr (Nat.lt_of_lt_of_le ?_ hstreams)
      have hnodup : (r.identity :: S.streamMetrics.keys).Nodup :=
        List.nodup_cons.mpr ⟨hold, S.streamMetrics.nodup⟩
      have hsub : (r.identity :: S.streamMetrics.keys).toFinset ⊆ streams := by
        intro key hkey
        rcases List.mem_cons.mp (List.mem_toFinset.mp hkey) with rfl | hkey
        · exact hr
        · exact hkeys key hkey
      have hcard := Finset.card_le_card hsub
      rw [List.toFinset_card_of_nodup hnodup, List.length_cons, Registry.keys,
        List.length_map] at hcard
      exact hcard
  unfold State.record
  rw [dif_pos hroom]
  exact ⟨_, rfl⟩

theorem keys_of_record {S S' : State} {r : Record} (h : S.record r = some S') :
    ∀ key ∈ S'.streamMetrics.keys, key ∈ S.streamMetrics.keys ∨ key = r.identity := by
  unfold State.record at h
  split at h
  · next hroom =>
    cases h
    intro key hkey
    exact (S.streamMetrics.mem_keys_set hroom _).mp hkey
  · cases h

/-- **The loop.** Whatever ends it, the accumulators are as they should be; and nothing but the end
of the input ends it if the frames are valid and of at most 256 streams. -/
theorem consume_kept (cfg : Config) {reads : List Read} {S : State} (h : Kept S) :
    Kept (consume cfg reads S).1 := by
  induction reads generalizing S with
  | nil => exact h
  | cons read reads ih =>
    -- a turn that records nothing leaves the four fields the invariant reads
    have hsame : ∀ {T : State}, T.received = S.received → T.acc = S.acc →
        T.streamMetrics = S.streamMetrics → T.recorded = S.recorded → Kept T := by
      intro T hreceived hacc hstreams hrecorded
      obtain ⟨h₁, h₂, h₃, h₄⟩ := h
      refine ⟨?_, ?_, ?_, ?_⟩
      · rw [hreceived, hrecorded, h₁]
      · rw [hacc, hrecorded, h₂]
      · rw [hstreams, hrecorded]
        exact h₃
      · rw [hstreams, hrecorded]
        exact h₄
    unfold consume
    split
    · exact h
    cases read with
    | ok frame recvTs =>
      cases frame with
      | none => exact h
      | some m =>
        dsimp only
        split
        · exact h
        split
        · exact ih (hsame rfl rfl rfl rfl)
        split
        · exact h
        · next S₁ hrecord => exact ih (h.record hrecord)
    | lapped resume => exact ih (hsame rfl rfl rfl rfl)
    | corrupt => exact h
    | empty idle =>
      dsimp only
      split
      · exact h
      · exact ih h

theorem consume_ends (cfg : Config) {streams : Finset Key} (hstreams : streams.card ≤ 256)
    {reads : List Read} {S : State} (hkeys : ∀ key ∈ S.streamMetrics.keys, key ∈ streams)
    (hvalid : ∀ read ∈ reads, read.Valid)
    (hreads : ∀ read ∈ reads, ∀ key ∈ read.identity, key ∈ streams) :
    (consume cfg reads S).2 = none := by
  induction reads generalizing S with
  | nil => rfl
  | cons read reads ih =>
    have hvalid' : ∀ read ∈ reads, read.Valid := fun r hr => hvalid r (List.mem_cons_of_mem _ hr)
    have hreads' : ∀ read ∈ reads, ∀ key ∈ read.identity, key ∈ streams :=
      fun r hr => hreads r (List.mem_cons_of_mem _ hr)
    have hread := hvalid read List.mem_cons_self
    have hidentity := hreads read List.mem_cons_self
    unfold consume
    split
    · rfl
    cases read with
    | ok frame recvTs =>
      cases frame with
      | none => exact hread.elim
      | some m =>
        have hmem : (recordOf m recvTs).identity ∈ streams := hidentity _ rfl
        dsimp only
        rw [show validateFrame m.header m.size = true from hread]
        split
        · next hbad => cases hbad
        split
        · exact ih hkeys hvalid' hreads'
        -- the table has room: the streams it holds are among the at most 256 of the input
        obtain ⟨S', hrecord⟩ := exists_record hstreams hkeys hmem
        rw [hrecord]
        refine ih (fun key hkey => ?_) hvalid' hreads'
        rcases keys_of_record hrecord key hkey with hold | rfl
        · exact hkeys key hold
        · exact hmem
    | lapped resume => exact ih hkeys hvalid' hreads'
    | corrupt => exact hread.elim
    | empty idle =>
      dsimp only
      split
      · rfl
      · exact ih hkeys hvalid' hreads'

/-! ### The report -/

/-- The numbers of all streams, from the smallest to the largest of each. -/
def totalSpan (records : List Record) : ℕ :=
  ((identities records).map fun key => span (seqs (ofStream key records))).sum

/-- The numbers of all streams that were not recorded, between the smallest and the largest. -/
def totalLost (records : List Record) : ℕ :=
  ((identities records).map fun key => (lost (seqs (ofStream key records))).card).sum

/-- No number of a stream is recorded twice. -/
def Distinct (records : List Record) : Prop :=
  (records.map fun r => (r.identity, r.seqId)).Nodup

theorem Distinct.seqs {records : List Record} (h : Distinct records) (key : Key) :
    (seqs (ofStream key records)).Nodup := by
  rw [Distinct, List.nodup_iff_pairwise_ne, List.pairwise_map] at h
  rw [Metrics.seqs, ofStream, List.map_map, List.nodup_iff_pairwise_ne, List.pairwise_map]
  refine (h.filter _).imp_of_mem ?_
  intro r r' hr hr' hne heq
  have hkey : r.identity = r'.identity :=
    (of_decide_eq_true (List.mem_filter.mp hr).2).trans
      (of_decide_eq_true (List.mem_filter.mp hr').2).symm
  exact hne (Prod.ext hkey (BitVec.eq_of_toNat_eq heq))

/-- The records are those of their streams. -/
theorem sum_length_ofStream (records : List Record) :
    ((identities records).map fun key => (ofStream key records).length).sum = records.length := by
  have hcount : ∀ key, (ofStream key records).length = (records.map Record.identity).count key := by
    intro key
    rw [ofStream, List.length_map, List.count, List.countP_map, List.countP_eq_length_filter]
    congr 1
  simp only [hcount]
  rw [identities, List.sum_map_count_dedup_eq_length, List.length_map]

/-- Fewer numbers were recorded than the ranges have. -/
theorem Distinct.length_le {records : List Record} (h : Distinct records) :
    records.length ≤ totalSpan records := by
  rw [← sum_length_ofStream]
  refine List.sum_le_sum fun key _ => ?_
  have hlost := card_lost (h.seqs key)
  rw [Metrics.seqs, List.length_map] at hlost
  rw [← Metrics.seqs] at hlost
  omega

theorem span_le_totalSpan {records : List Record} {key : Key} (hkey : key ∈ identities records) :
    span (seqs (ofStream key records)) ≤ totalSpan records :=
  List.le_sum_of_mem (List.mem_map_of_mem hkey)

theorem toNat_sum {l : List (BitVec 64)} (h : (l.map BitVec.toNat).sum < 2 ^ 64) :
    l.sum.toNat = (l.map BitVec.toNat).sum := by
  induction l with
  | nil => rfl
  | cons x l ih =>
    rw [List.map_cons, List.sum_cons] at h
    rw [List.sum_cons, List.map_cons, List.sum_cons, BitVec.toNat_add, ih (by omega),
      Nat.mod_eq_of_lt h]

section Sums

variable {S S' : State}

/-- A sum over the accumulators is a sum over the streams. -/
theorem Kept.map_entries (h : Kept S) {β : Type} (f : Report → β) :
    S.streamMetrics.entries.map (fun item => f item.2.report) =
      S.streamMetrics.keys.map fun key =>
        f (Accumulator.recordAll (ofStream key S.recorded)).report := by
  rw [Registry.keys, List.map_map]
  refine List.map_congr_left fun item hitem => ?_
  have hfind := h.streams item.1 (List.mem_map_of_mem hitem)
  rw [S.streamMetrics.find_of_mem hitem, Option.some.injEq] at hfind
  rw [hfind]
  rfl

theorem Kept.keys_perm (h : Kept S) : S.streamMetrics.keys.Perm (identities S.recorded) :=
  (List.perm_ext_iff_of_nodup S.streamMetrics.nodup (List.nodup_dedup _)).mpr fun key =>
    (h.keys key).trans List.mem_dedup.symm

theorem length_ofStream_le (key : Key) (records : List Record) :
    (ofStream key records).length ≤ records.length := by
  rw [ofStream, List.length_map]
  exact List.length_filter_le _ _

theorem summarizes_ofStream {records : List Record} (hcount : records.length ≤ 2 ^ 64)
    (key : Key) : Summarizes (.recordAll (ofStream key records)) (ofStream key records) :=
  .recordAll ((length_ofStream_le key records).trans hcount)

theorem length_numbered (records : List Record) : (numbered records).length = records.length := by
  rw [numbered, List.length_map, List.length_zipIdx]

theorem Kept.summarizes_acc (h : Kept S) (hcount : S.recorded.length ≤ 2 ^ 64) :
    Summarizes S.acc (numbered S.recorded) := by
  rw [h.acc]
  exact .recordAll ((length_numbered _).trans_le hcount)

/-- What is reported as dropped, if the ranges are not too large for the counters. -/
theorem Kept.dropped_eq (h : Kept S) (hdistinct : Distinct S.recorded)
    (hspan : totalSpan S.recorded < 2 ^ 64) :
    S.report.dropped.toNat = totalLost S.recorded := by
  have hcount : S.recorded.length ≤ 2 ^ 64 := (hdistinct.length_le.trans_lt hspan).le
  let dropped : Key → BitVec 64 :=
    fun key => (Accumulator.recordAll (ofStream key S.recorded)).report.dropped
  have hsum : S.report.dropped = ((identities S.recorded).map dropped).sum := by
    show (S.streamMetrics.entries.map fun item => item.2.report.dropped).sum = _
    rw [h.map_entries Report.dropped]
    exact (h.keys_perm.map dropped).sum_eq
  -- each stream reports what it has lost
  have hstreams : ((identities S.recorded).map dropped).map BitVec.toNat =
      (identities S.recorded).map fun key => (lost (seqs (ofStream key S.recorded))).card := by
    rw [List.map_map]
    refine List.map_congr_left fun key hkey => ?_
    exact ((summarizes_ofStream hcount key).report_exact (hdistinct.seqs key)
      ((span_le_totalSpan hkey).trans_lt hspan)).2.2
  have hbound : totalLost S.recorded ≤ totalSpan S.recorded := by
    refine List.sum_le_sum fun key _ => ?_
    have hlost := card_lost (hdistinct.seqs key)
    omega
  rw [hsum, toNat_sum, hstreams]
  · rfl
  · rw [hstreams]
    exact hbound.trans_lt hspan

theorem Kept.received_eq (h : Kept S) (hcount : S.recorded.length < 2 ^ 64) :
    S.report.received.toNat = S.recorded.length := by
  have hlength := length_numbered S.recorded
  have hreceived := (h.summarizes_acc hcount.le).received_toNat (hlength.trans_lt hcount)
  rw [hlength] at hreceived
  show S.acc.report.received.toNat = _
  unfold Accumulator.report
  split
  · exact hreceived
  · exact hreceived

theorem seqs_numbered (records : List Record) :
    seqs (numbered records) =
      (List.range records.length).map fun i => (BitVec.ofNat 64 (i + 1)).toNat := by
  rw [seqs, numbered, List.map_map, List.range_eq_range', ← List.zipIdx_map_snd, List.map_map]
  rfl

theorem lats_numbered (records : List Record) :
    lats (numbered records) = records.map fun r => r.latency.toNat := by
  conv_rhs => rw [← List.zipIdx_map_fst 0 records, List.map_map]
  rw [lats, numbered, List.map_map]
  rfl

/-- **The order in which frames were recorded does not show.** -/
theorem Kept.report_eq_of_perm (h : Kept S) (h' : Kept S') (hcount : S.recorded.length ≤ 2 ^ 64)
    (hperm : S'.recorded.Perm S.recorded) : S'.report = S.report := by
  have hcount' : S'.recorded.length ≤ 2 ^ 64 := hperm.length_eq.trans_le hcount
  have hacc : S'.acc.report = S.acc.report := by
    refine (h'.summarizes_acc hcount').report_eq_of_perm (h.summarizes_acc hcount) ?_ ?_
    · rw [seqs_numbered, seqs_numbered, hperm.length_eq]
    · rw [lats_numbered, lats_numbered]
      exact hperm.map _
  have hstream : ∀ key, (Accumulator.recordAll (ofStream key S'.recorded)).report =
      (Accumulator.recordAll (ofStream key S.recorded)).report := by
    intro key
    have hrecords : (ofStream key S'.recorded).Perm (ofStream key S.recorded) :=
      (hperm.filter _).map _
    exact (summarizes_ofStream hcount' key).report_eq_of_perm (summarizes_ofStream hcount key)
      (hrecords.map _) (hrecords.map _)
  have hkeys : S'.streamMetrics.keys.Perm S.streamMetrics.keys :=
    h'.keys_perm.trans ((hperm.map Record.identity).dedup.trans h.keys_perm.symm)
  have hsum : ∀ f : Report → BitVec 64,
      (S'.streamMetrics.entries.map fun item => f item.2.report).sum =
        (S.streamMetrics.entries.map fun item => f item.2.report).sum := by
    intro f
    rw [h.map_entries, h'.map_entries]
    simp only [hstream]
    exact (hkeys.map _).sum_eq
  unfold State.report
  rw [hacc, hsum Report.expected, hsum Report.dropped]

end Sums

/-- **The drop report is exact and does not depend on the order.** For frames that are valid and of
at most 256 streams, with no number of a stream recorded twice and ranges that are together smaller
than `2^64`: the consumer prints a report; it has the number of frames recorded, and as dropped the
numbers that lie in the range of their stream and were not recorded; every other run that recorded
the same, in any order, prints the same report; and every accumulator has kept at most 65536
latencies, each between the extremes it reports. -/
theorem drop_report_exact (cfg : Config) (readIndex : ℕ) (reads : List Read)
    (hvalid : ∀ read ∈ reads, read.Valid)
    (hstreams : (reads.filterMap Read.identity).dedup.length ≤ 256)
    (hdistinct : Distinct (consume cfg reads { readIndex := readIndex }).1.recorded)
    (hspan : totalSpan (consume cfg reads { readIndex := readIndex }).1.recorded < 2 ^ 64) :
    let S := (consume cfg reads { readIndex := readIndex }).1
    (run cfg readIndex reads).1 = some S.report ∧
      S.report.received.toNat = S.recorded.length ∧
      S.report.dropped.toNat = totalLost S.recorded ∧
      (∀ cfg' readIndex' reads', (consume cfg' reads' { readIndex := readIndex' }).2 = none →
        (consume cfg' reads' { readIndex := readIndex' }).1.recorded.Perm S.recorded →
        (run cfg' readIndex' reads').1 = some S.report) ∧
      (S.acc.latencies.length ≤ 65536 ∧
        ∀ v ∈ S.acc.latencies, S.report.latMin.toNat ≤ v ∧ v ≤ S.report.latMax.toNat) ∧
      ∀ item ∈ S.streamMetrics.entries, item.2.latencies.length ≤ 65536 ∧
        ∀ v ∈ item.2.latencies,
          item.2.report.latMin.toNat ≤ v ∧ v ≤ item.2.report.latMax.toNat := by
  intro S
  have hkept : Kept S := consume_kept cfg (.start readIndex)
  have hcount : S.recorded.length < 2 ^ 64 := hdistinct.length_le.trans_lt hspan
  -- valid frames of at most 256 streams: the loop runs to the end of the input
  have hends : (consume cfg reads { readIndex := readIndex }).2 = none := by
    have hidentities : ∀ read ∈ reads, ∀ key ∈ read.identity,
        key ∈ (reads.filterMap Read.identity).toFinset := by
      intro read hread key hkey
      exact List.mem_toFinset.mpr (List.mem_filterMap.mpr ⟨read, hread, hkey⟩)
    have hcard : (reads.filterMap Read.identity).toFinset.card ≤ 256 := by
      rwa [List.card_toFinset]
    exact consume_ends cfg hcard (fun _ hkey => absurd hkey List.not_mem_nil) hvalid hidentities
  have hrun : ∀ {cfg' readIndex' reads'},
      (consume cfg' reads' { readIndex := readIndex' }).2 = none →
      (run cfg' readIndex' reads').1 =
        some (consume cfg' reads' { readIndex := readIndex' }).1.report := by
    intro cfg' readIndex' reads' hnone
    unfold run
    generalize consume cfg' reads' { readIndex := readIndex' } = result at hnone ⊢
    obtain ⟨S', exit⟩ := result
    cases hnone
    rfl
  have hall := hkept.summarizes_acc hcount.le
  refine ⟨hrun hends, hkept.received_eq hcount, hkept.dropped_eq hdistinct hspan, ?_,
    ⟨hall.bounded, hall.sampled_between ((length_numbered _).trans_lt hcount)⟩, ?_⟩
  -- a report is a function of what is recorded up to order
  · intro cfg' readIndex' reads' hends' hperm
    have hkept' : Kept (consume cfg' reads' { readIndex := readIndex' }).1 :=
      consume_kept cfg' (.start readIndex')
    rw [hrun hends', hkept.report_eq_of_perm hkept' hcount.le hperm]
  -- the accumulator of a stream has recorded no more frames than the whole run
  · intro item hitem
    have hfind := hkept.streams item.1 (List.mem_map_of_mem hitem)
    rw [S.streamMetrics.find_of_mem hitem, Option.some.injEq] at hfind
    have hitem := summarizes_ofStream hcount.le item.1
    rw [← hfind] at hitem
    exact ⟨hitem.bounded,
      hitem.sampled_between ((length_ofStream_le item.1 S.recorded).trans_lt hcount)⟩

/-- A trade of stream `s` that was under way for `latency`. -/
def trade (s seq latency : BitVec 64) : Read :=
  .ok (some (.trade { Wire.goldenTrade with header := { Wire.goldenTrade.header with
    streamId := s, streamEpoch := 1, seqId := seq } })) (Wire.goldenTrade.header.sendTsNs + latency)

theorem trade_valid (s seq latency : BitVec 64) : (trade s seq latency).Valid := rfl

/-- Two streams, the first with two numbers missing, and the same records in another order. -/
theorem interleaved_streams_report :
    let reads := [trade 1 8 50, trade 2 3 20, .lapped 7, trade 1 5 90, .empty false, trade 2 4 20]
    let S := (consume {} reads {}).1
    S.report.received.toNat = 4 ∧ S.report.dropped.toNat = 2 ∧
      (run {} 0 [trade 2 4 20, trade 1 5 90, trade 1 8 50, trade 2 3 20]).1 = some S.report := by
  intro reads S
  have hrecorded : S.recorded =
      [⟨⟨1, 1⟩, 8, 50⟩, ⟨⟨2, 1⟩, 3, 20⟩, ⟨⟨1, 1⟩, 5, 90⟩, ⟨⟨2, 1⟩, 4, 20⟩] := by decide +kernel
  have hvalid : ∀ read ∈ reads, read.Valid := by
    simp only [reads, List.forall_mem_cons]
    exact ⟨trade_valid .., trade_valid .., trivial, trade_valid .., trivial, trade_valid ..,
      fun _ hread => absurd hread List.not_mem_nil⟩
  have hdistinct : Distinct S.recorded := by
    rw [hrecorded]
    unfold Distinct
    decide
  have hspan : totalSpan S.recorded < 2 ^ 64 := by
    rw [hrecorded]
    decide +kernel
  obtain ⟨-, hreceived, hdropped, hperm, -⟩ :=
    drop_report_exact {} 0 reads hvalid (by decide +kernel) hdistinct hspan
  refine ⟨?_, ?_, hperm {} 0 _ (by decide +kernel) (by decide +kernel)⟩
  · rw [hreceived, hrecorded]
    rfl
  · rw [hdropped, hrecorded]
    decide +kernel

end Consumer
end PulseFanout
