import Mathlib.Algebra.BigOperators.Fin
import PulseFanout.Framework.Bounds
import PulseFanout.Framework.Lists
import PulseFanout.Fec.Decoder
import PulseFanout.Fec.Stage

/-!
# Recovery of a genuine generation

`Sim O g S` says that the generation `g` of the decoder is at stage `S` of the generation
`O` the encoder closed: every block it stores is one of `O`'s, every parity row too, and its
dimensions are those `O` announces. `Sim.tryRecover`, `Sim.receiveData` and
`Sim.receiveParity` are the simulation: fed a shard of `O` the decoder succeeds, hands the
callback exactly the frames the stage offers, byte for byte, and ends at the next stage.

The arithmetic is in two lemmas. `Sim.syndrome` computes a row of the right-hand side: what
is left of the parity is the combination of the blocks still lost. `Sim.solve` then applies
`solve_eq`, the coefficient matrix of any rows and columns having a trivial kernel.
-/

namespace PulseFanout
namespace Fec

open Framework Framework.LinearSystem Matrix

/-! ### The simulation relation -/

/-- The callback's state after a list of offers. -/
def Origin.offerAll {σ : Type} (O : Origin) (publish : Publish σ) (offers : List Offer) (s : σ) :
    σ :=
  offers.foldl (fun s o => (publish (O.frame o.index) o.recovered o.reason s).2) s

/-- The generation `g` is at stage `S` of `O`. -/
structure Sim (O : Origin) (g : Generation) (S : Stage) : Prop where
  active : g.active = true
  genId : g.genId = O.genId
  /-- Only frames of the generation are at hand. -/
  held_lt : ∀ i ∈ S.held, i < O.n
  /-- Only rows of the generation are at hand. -/
  rows_lt : ∀ r ∈ S.rows, r < O.p
  parityReceived : g.parityReceived = decide S.rows.Nonempty
  recovered : g.recovered = S.done
  /-- A data shard announces the encoder's `k`, a parity shard the number of frames. -/
  k_eq : g.k = if S.rows.Nonempty then O.n else O.encoder.k
  lengths : g.data.length = g.received.length
  received : ∀ i, g.received.getD i false = decide (i ∈ S.held)
  /-- A stored block is the frame's, padded or not. -/
  data : ∀ i ∈ S.held, ∃ pad ≤ O.encoder.maxLen, (O.frame i).length ≤ pad ∧
    g.data.getD i [] = protectedFrame (O.frame i) pad
  /-- Before the first parity shard the close reason is not known. -/
  closeReason : g.closeReason = if S.rows.Nonempty then O.reason.toNat else 0
  parityCount : S.rows.Nonempty → g.parityCount = O.p
  /-- A stored parity is the encoder's. -/
  parities : g.parities =
    if S.rows.Nonempty then (List.range 16).map fun r => if r ∈ S.rows then O.payload r else []
    else []

namespace Sim

variable {O : Origin} {g : Generation} {S : Stage}

/-! ### Reading the state -/

theorem k_of_rows (h : Sim O g S) (hrows : S.rows.Nonempty) : g.k = O.n := by
  rw [h.k_eq, if_pos hrows]

theorem absent_eq (h : Sim O g S) (hrows : S.rows.Nonempty) : g.absent = S.lost O.n := by
  simp only [Generation.absent, h.k_of_rows hrows, Stage.lost, h.received]
  congr 1
  funext i
  by_cases hi : i ∈ S.held <;> simp [hi]

theorem payload_ne_nil (O : Origin) (r : ℕ) : O.payload r ≠ [] := by
  intro hnil
  have hlen := O.payload_length r
  rw [hnil, List.length_nil, Origin.width] at hlen
  omega

theorem parity_getD (h : Sim O g S) (hrows : S.rows.Nonempty) {r : ℕ} (hr : r ∈ S.rows) :
    g.parities.getD r [] = O.payload r := by
  have hlt : r < 16 := (h.rows_lt r hr).trans_le O.p_le
  rw [h.parities, if_pos hrows, getD_map (d := 0) _ _ (by rw [List.length_range]; exact hlt),
    List.getD_eq_getElem _ _ (by rw [List.length_range]; exact hlt), List.getElem_range, if_pos hr]

theorem mem_rows (h : Sim O g S) (hrows : S.rows.Nonempty) {r : ℕ} : r ∈ g.rows ↔ r ∈ S.rows := by
  have hlen : g.parities.length = 16 := by
    rw [h.parities, if_pos hrows, List.length_map, List.length_range]
  rw [Generation.rows, List.mem_filter, List.mem_range, hlen]
  constructor
  · rintro ⟨hlt, hne⟩
    by_contra hr
    rw [h.parities, if_pos hrows, getD_map (d := 0) _ _ (by rw [List.length_range]; exact hlt),
      List.getD_eq_getElem _ _ (by rw [List.length_range]; exact hlt), List.getElem_range,
      if_neg hr] at hne
    simp at hne
  · intro hr
    refine ⟨(h.rows_lt r hr).trans_le O.p_le, ?_⟩
    rw [h.parity_getD hrows hr]
    simp [payload_ne_nil]

theorem rows_length (h : Sim O g S) (hrows : S.rows.Nonempty) : g.rows.length = S.rows.card := by
  have hnodup : g.rows.Nodup := List.Nodup.filter _ List.nodup_range
  rw [← List.toFinset_card_of_nodup hnodup]
  congr 1
  ext r
  rw [List.mem_toFinset, h.mem_rows hrows]

/-! ### The right-hand side -/

theorem of_addShard (factor : Byte) {acc shard : List Byte} {j : ℕ} (hj : j < acc.length) :
    GF256.of ((Generation.addShard factor acc shard).getD j 0#8) =
      GF256.of (acc.getD j 0#8) + GF256.of factor * GF256.of (shard.getD j 0#8) := by
  rw [Generation.addShard, getD_mapIdx _ _ hj]
  split
  · rw [GF256.of_xor, GF256.of_mul]
  · next h =>
    rw [List.getD_eq_default _ _ (Nat.le_of_not_lt h), GF256.of_zero, mul_zero, add_zero]

theorem add_self (a : GF256) : a + a = 0 := neg_add_cancel a

/-- One column of one row. -/
theorem subtract (h : Sim O g S) (row : ℕ) {acc : List Byte} (hacc : acc.length = O.width)
    (c : ℕ) :
    ∃ out, g.subtract O.width row acc c = some out ∧ out.length = O.width ∧
      ∀ j < O.width, GF256.of (out.getD j 0#8) = GF256.of (acc.getD j 0#8) +
        if c ∈ S.held then GF256.of (coefficient row c) * GF256.of ((O.block c).getD j 0#8)
        else 0 := by
  rw [Generation.subtract, h.received]
  by_cases hheld : c ∈ S.held
  · obtain ⟨pad, hpad, hle, hdata⟩ := h.data c hheld
    have hshort : ¬ (g.data.getD c []).length > O.width := by
      rw [hdata, protectedFrame_length hle, Origin.width]
      omega
    rw [if_pos (decide_eq_true hheld), if_neg hshort]
    refine ⟨_, rfl, (Generation.addShard_length _ _ _).trans hacc, fun j hj => ?_⟩
    rw [of_addShard _ (hacc ▸ hj), if_pos hheld, hdata,
      protectedFrame_getD _ pad O.encoder.maxLen]
    rfl
  · rw [if_neg (by simpa using hheld)]
    exact ⟨acc, rfl, hacc, fun j _ => by rw [if_neg hheld, add_zero]⟩

/-- The loop over the columns of one row. -/
theorem subtract_loop (h : Sim O g S) (row n : ℕ) {acc : List Byte}
    (hacc : acc.length = O.width) :
    ∃ out, (List.range n).foldlM (g.subtract O.width row) acc = some out ∧
      out.length = O.width ∧
      ∀ j < O.width, GF256.of (out.getD j 0#8) = GF256.of (acc.getD j 0#8) +
        ∑ c ∈ Finset.range n, if c ∈ S.held then
          GF256.of (coefficient row c) * GF256.of ((O.block c).getD j 0#8) else 0 := by
  induction n with
  | zero =>
    refine ⟨acc, rfl, hacc, fun j _ => ?_⟩
    rw [Finset.sum_range_zero, add_zero]
  | succ n ih =>
    obtain ⟨mid, hrun, hmid, hmidval⟩ := ih
    obtain ⟨out, hstep, hlen, hval⟩ := h.subtract row hmid n
    refine ⟨out, ?_, hlen, fun j hj => ?_⟩
    · rw [List.range_succ, List.foldlM_append, hrun]
      simp [hstep]
    · rw [hval j hj, hmidval j hj, Finset.sum_range_succ, add_assoc]

/-- **A row of the right-hand side** is the combination of the blocks still lost. -/
theorem syndrome (h : Sim O g S) (hrows : S.rows.Nonempty) {row : ℕ} (hrow : row ∈ S.rows) :
    ∃ out, g.syndrome O.width row = some out ∧ out.length = O.width ∧
      ∀ j < O.width, GF256.of (out.getD j 0#8) =
        ((S.lost O.n).map fun c =>
          GF256.of (coefficient row c) * GF256.of ((O.block c).getD j 0#8)).sum := by
  obtain ⟨out, hrun, hlen, hval⟩ := h.subtract_loop row O.n (O.payload_length row)
  refine ⟨out, ?_, hlen, fun j hj => ?_⟩
  · rw [Generation.syndrome, h.k_of_rows hrows, h.parity_getD hrows hrow]
    exact hrun
  · have hnodup : (S.lost O.n).Nodup := List.Nodup.filter _ List.nodup_range
    have hset : (S.lost O.n).toFinset = (Finset.range O.n).filter fun c => c ∉ S.held := by
      ext c
      simp [Stage.lost]
    rw [hval j hj, O.of_payload row hj, ← List.sum_toFinset _ hnodup, hset, Finset.sum_filter,
      ← Finset.sum_add_distrib]
    refine Finset.sum_congr rfl fun c _ => ?_
    by_cases hc : c ∈ S.held
    · simp only [hc, if_true, not_true_eq_false, if_false, add_self]
    · simp only [hc, if_false, not_false_eq_true, if_true, add_zero]

/-! ### The solution -/

/-- **The elimination loop recovers the lost blocks.** -/
theorem solve (h : Sim O g S) {rows : List ℕ} (hnodup : rows.Nodup)
    (hrows : ∀ r ∈ rows, r ∈ S.rows) (hlen : rows.length = (S.lost O.n).length)
    (hne : S.rows.Nonempty) :
    ∃ rhs M, rows.mapM (g.syndrome O.width) = some rhs ∧
      Fec.solve (S.lost O.n).length ⟨coefficientTable rows (S.lost O.n), rhs⟩ =
        .ok ⟨M, (S.lost O.n).map O.block⟩ := by
  have hsyn : ∀ r ∈ rows, ∃ out, g.syndrome O.width r = some out ∧ out.length = O.width ∧
      ∀ j < O.width, GF256.of (out.getD j 0#8) = ((S.lost O.n).map fun c =>
        GF256.of (coefficient r c) * GF256.of ((O.block c).getD j 0#8)).sum :=
    fun r hr => h.syndrome hne (hrows r hr)
  have hlt : ∀ c ∈ S.lost O.n, c < O.n := fun c hc => (Stage.mem_lost.mp hc).1
  have hker := coefficientTable_kernel hnodup (List.Nodup.filter _ List.nodup_range) hlen
    (fun r hr => by have := h.rows_lt r (hrows r hr); have := O.p_le; omega)
    (fun c hc => by have := hlt c hc; have := O.n_le; have := O.k_le; omega)
  have hrhs := mapM_eq_some (g.syndrome O.width) [] rows fun r hr => by
    obtain ⟨out, hout, -⟩ := hsyn r hr
    rw [hout]; rfl
  have hshape : System.Shape ⟨coefficientTable rows (S.lost O.n),
      rows.map fun r => (g.syndrome O.width r).getD []⟩ (S.lost O.n).length O.width := by
    refine ⟨hlen ▸ coefficientTable_table rows (S.lost O.n), by rw [List.length_map, hlen], ?_⟩
    intro row hmem
    obtain ⟨r, hr, rfl⟩ := List.mem_map.mp hmem
    obtain ⟨out, hout, hwidth, -⟩ := hsyn r hr
    rw [hout, Option.getD_some, hwidth]
  have hblocks : Table (S.lost O.n).length O.width ((S.lost O.n).map O.block) := by
    refine ⟨List.length_map _, fun row hmem => ?_⟩
    obtain ⟨c, hc, rfl⟩ := List.mem_map.mp hmem
    exact O.block_length (hlt c hc)
  -- row by row, the lost blocks solve the system
  have hsol : ∀ j < O.width,
      toMatrix (S.lost O.n).length (coefficientTable rows (S.lost O.n)) *ᵥ
          toVec (S.lost O.n).length ((S.lost O.n).map O.block) j =
        toVec (S.lost O.n).length (rows.map fun r => (g.syndrome O.width r).getD []) j := by
    intro j hj
    funext r
    have hr : (r : ℕ) < rows.length := by rw [hlen]; exact r.2
    obtain ⟨out, hout, -, hval⟩ := hsyn _ (getD_mem hr)
    have hright : toVec (S.lost O.n).length (rows.map fun r => (g.syndrome O.width r).getD []) j r =
        GF256.of (out.getD j 0#8) := by
      rw [toVec, entry_map _ _ 0 hr, hout, Option.getD_some]
    rw [hright, hval j hj, ← Fin.sum_univ_fun_getElem, mulVec, dotProduct]
    refine Finset.sum_congr rfl fun c _ => ?_
    rw [toMatrix, toVec, entry_coefficientTable hr c.2, entry_map _ _ 0 c.2,
      List.getD_eq_getElem _ _ c.2]
  obtain ⟨M, hM⟩ := solve_eq hshape hker hblocks hsol
  exact ⟨_, M, hrhs, hM⟩

/-! ### Publishing what was recovered -/

/-- The callback accepts every frame of `O` in the states `P`, which it keeps. -/
def Takes {σ : Type} (publish : Publish σ) (O : Origin) (P : σ → Prop) : Prop :=
  ∀ i < O.n, ∀ recovered reason s, P s →
    (publish (O.frame i) recovered reason s).1 = true ∧
      P (publish (O.frame i) recovered reason s).2

theorem block_payload (O : Origin) {i : ℕ} (hi : i < O.n) :
    ((O.block i).drop 2).take (getU16 (O.block i)) = O.frame i := by
  have hrange := O.frame_range hi
  rw [Origin.block, getU16_protectedFrame _ (by rw [Wire.maxFrame] at hrange; omega),
    protectedFrame_payload]

theorem block_lengthOk (O : Origin) {i : ℕ} (hi : i < O.n) :
    lengthOk O.width (O.block i) = true := by
  have hrange := O.frame_range hi
  have hle := O.frame_le_maxLen hi
  rw [lengthOk, Origin.block, getU16_protectedFrame _ (by rw [Wire.maxFrame] at hrange; omega),
    Origin.width]
  simp only [bne_iff_ne, Bool.and_eq_true, decide_eq_true_eq, ne_eq]
  omega

section Callback

variable {σ : Type} {publish : Publish σ} {P : σ → Prop}

theorem publishRecovered (hpub : Takes publish O P) (l : List ℕ) (hl : ∀ i ∈ l, i < O.n)
    (W : Work σ) (hP : P W.out) :
    ∃ W', Fec.publishRecovered publish (l.zip (l.map O.block)) W = (true, W') ∧
      W'.gen = { W.gen with
        received := l.foldl (fun v i => v.set i true) W.gen.received
        data := l.foldl (fun v i => v.set i (O.block i)) W.gen.data } ∧
      W'.out = O.offerAll publish (l.map fun i => ⟨i, true, W.gen.closeReason⟩) W.out ∧
      P W'.out := by
  induction l generalizing W with
  | nil => exact ⟨W, rfl, rfl, rfl, hP⟩
  | cons i l ih =>
    have hi := hl i List.mem_cons_self
    obtain ⟨hok, hPnext⟩ := hpub i hi true W.gen.closeReason W.out hP
    obtain ⟨W', hrun, hgen, hout, hP'⟩ := ih (fun j hj => hl j (List.mem_cons_of_mem _ hj))
      ⟨{ W.gen with
          received := W.gen.received.set i true
          data := W.gen.data.set i (O.block i) },
        { W.stats with counters := W.stats.counters.countRecovered W.gen.closeReason },
        (publish (O.frame i) true W.gen.closeReason W.out).2⟩ hPnext
    refine ⟨W', ?_, hgen, hout, hP'⟩
    rw [List.map_cons, List.zip_cons_cons, Fec.publishRecovered, block_payload O hi]
    rw [← hrun, ← Prod.mk.eta (p := publish (O.frame i) true W.gen.closeReason W.out), hok]

/-- The generation once every lost block is stored. -/
theorem complete (h : Sim O g S) (hlen : O.n ≤ g.data.length) :
    Sim O { g with
        received := (S.lost O.n).foldl (fun v i => v.set i true) g.received
        data := (S.lost O.n).foldl (fun v i => v.set i (O.block i)) g.data
        recovered := true }
      ⟨Finset.range O.n, S.rows, true⟩ := by
  have hlt : ∀ i ∈ S.lost O.n, i < O.n := fun i hi => (Stage.mem_lost.mp hi).1
  obtain ⟨hrlen, hrval⟩ := foldl_set (fun _ => true) false (S.lost O.n) g.received
    fun i hi => by rw [← h.lengths]; exact (hlt i hi).trans_le hlen
  obtain ⟨hdlen, hdval⟩ := foldl_set O.block [] (S.lost O.n) g.data
    fun i hi => (hlt i hi).trans_le hlen
  exact
    { active := h.active
      genId := h.genId
      held_lt := fun i hi => Finset.mem_range.mp hi
      rows_lt := h.rows_lt
      parityReceived := h.parityReceived
      recovered := rfl
      k_eq := h.k_eq
      lengths := by rw [hdlen, hrlen, h.lengths]
      received := by
        intro i
        rw [hrval, h.received]
        -- marked now, marked before, or not a frame of the generation
        by_cases hi : i ∈ S.lost O.n
        · rw [if_pos hi, decide_eq_true (Finset.mem_range.mpr (hlt i hi))]
        · rw [if_neg hi]
          by_cases hheld : i ∈ S.held
          · rw [decide_eq_true hheld, decide_eq_true (Finset.mem_range.mpr (h.held_lt i hheld))]
          · have hge : i ∉ Finset.range O.n := fun hr =>
              hi (Stage.mem_lost.mpr ⟨Finset.mem_range.mp hr, hheld⟩)
            rw [decide_eq_false hheld, decide_eq_false hge]
      data := by
        intro i hi
        have hin := Finset.mem_range.mp hi
        rw [hdval]
        -- a frame that came keeps its own padding, a recovered one has that of the parity
        by_cases hheld : i ∈ S.held
        · rw [if_neg fun hl => (Stage.mem_lost.mp hl).2 hheld]
          exact h.data i hheld
        · rw [if_pos (Stage.mem_lost.mpr ⟨hin, hheld⟩)]
          exact ⟨O.encoder.maxLen, le_rfl, O.frame_le_maxLen hin, rfl⟩
      closeReason := h.closeReason
      parityCount := h.parityCount
      parities := h.parities }

/-- Nothing is tried without a parity shard, after a recovery, with nothing lost, or with too few
rows. -/
theorem tryRecover_idle {W : Work σ} (h : Sim O W.gen S) (hready : ¬ S.Ready O.n) (now : ℕ) :
    Fec.tryRecover publish now W = (true, W) := by
  by_cases hrows : S.rows.Nonempty
  swap
  · rw [Fec.tryRecover, h.parityReceived, decide_eq_false hrows]
    rfl
  cases hdone : S.done with
  | true =>
    rw [Fec.tryRecover, h.recovered, hdone, Bool.or_true]
    rfl
  | false =>
    have hmissing : W.gen.missing = (S.lost O.n).length := by
      rw [Generation.missing_eq, h.absent_eq hrows]
    have hcard := h.rows_length hrows
    by_cases hlost : S.lost O.n = []
    · simp [Fec.tryRecover, hmissing, hlost]
    · have hfew : S.rows.card < (S.lost O.n).length := by
        by_contra hge
        exact hready ⟨hrows, hdone, hlost, not_lt.mp hge⟩
      simp [Fec.tryRecover, hmissing, hlost, hcard, hfew]

/-- The rows `try_recover` takes: as many as there are frames lost. -/
theorem taken_rows (h : Sim O g S) (hready : S.Ready O.n) :
    (g.rows.take (S.lost O.n).length).length = (S.lost O.n).length ∧
      (∀ r ∈ g.rows.take (S.lost O.n).length, r ∈ S.rows) ∧
      (g.rows.take (S.lost O.n).length).Nodup := by
  obtain ⟨hrows, -, -, henough⟩ := hready
  refine ⟨?_, fun r hr => (h.mem_rows hrows).mp (List.mem_of_mem_take hr),
    (List.take_sublist _ _).nodup (List.Nodup.filter _ List.nodup_range)⟩
  rw [List.length_take, h.rows_length hrows]
  omega

/-- Otherwise the lost frames are solved for and published. -/
theorem tryRecover_ready {W : Work σ} (h : Sim O W.gen S) (hready : S.Ready O.n)
    (hlen : O.n ≤ W.gen.data.length) (hpub : Takes publish O P) (hP : P W.out) (now : ℕ) :
    ∃ W', Fec.tryRecover publish now W = (true, W') ∧
      Sim O W'.gen ⟨Finset.range O.n, S.rows, true⟩ ∧
      W'.out = O.offerAll publish ((S.lost O.n).map fun i => ⟨i, true, W.gen.closeReason⟩) W.out ∧
      P W'.out := by
  obtain ⟨htake, hmem, hnodup⟩ := h.taken_rows hready
  obtain ⟨hrows, hdone, hlost, henough⟩ := hready
  have hn := O.n_pos
  have hpos : 0 < (S.lost O.n).length := List.length_pos_of_ne_nil hlost
  have habsent := h.absent_eq hrows
  have hmissing : W.gen.missing = (S.lost O.n).length := by rw [Generation.missing_eq, habsent]
  have hcard := h.rows_length hrows
  have hguard : (!W.gen.parityReceived || W.gen.recovered || decide (W.gen.k = 0)) = false := by
    rw [h.parityReceived, h.recovered, hdone, decide_eq_true hrows, h.k_of_rows hrows,
      decide_eq_false (by omega)]
    rfl
  have hwidth : (W.gen.parities.getD ((W.gen.rows.take (S.lost O.n).length).getD 0 0) []).length =
      O.width := by
    rw [h.parity_getD hrows (hmem _ (getD_mem (by rw [htake]; exact hpos))), O.payload_length]
  -- as many rows as frames are lost; the solution is their blocks
  obtain ⟨rhs, M, hmap, hsolve⟩ := h.solve hnodup hmem htake hrows
  have hlt : ∀ i ∈ S.lost O.n, i < O.n := fun i hi => (Stage.mem_lost.mp hi).1
  have hall : ((S.lost O.n).map O.block).all (lengthOk O.width) = true := by
    rw [List.all_map, List.all_eq_true]
    exact fun i hi => block_lengthOk O (hlt i hi)
  obtain ⟨W', hrun, hgen, hout, hP'⟩ := publishRecovered hpub (S.lost O.n) hlt W hP
  refine ⟨finishRecovery now W', ?_, ?_, hout, hP'⟩
  · rw [Fec.tryRecover]
    simp only [hguard, Bool.false_eq_true, if_false, hmissing, hcard, hwidth, hmap, habsent,
      hsolve, hall, if_true, hrun]
    rw [if_neg (by omega), if_neg (by omega)]
  · have hfinish : (finishRecovery now W').gen = { W'.gen with recovered := true } := rfl
    rw [hfinish, hgen]
    exact h.complete hlen

/-- **`try_recover` on a genuine generation.** -/
theorem tryRecover {W : Work σ} (h : Sim O W.gen S)
    (hlen : S.rows.Nonempty → O.n ≤ W.gen.data.length) (hpub : Takes publish O P) (hP : P W.out)
    (now : ℕ) :
    ∃ W', Fec.tryRecover publish now W = (true, W') ∧
      Sim O W'.gen (S.recover O.n O.reason.toNat).2 ∧
      W'.out = O.offerAll publish (S.recover O.n O.reason.toNat).1 W.out ∧ P W'.out := by
  rw [Stage.recover]
  by_cases hready : S.Ready O.n
  · obtain ⟨W', hrun, hsim, hout, hP'⟩ := h.tryRecover_ready hready (hlen hready.1) hpub hP now
    -- with a parity shard at hand, the close reason is the generation's
    rw [h.closeReason, if_pos hready.1] at hout
    rw [if_pos hready]
    exact ⟨W', hrun, hsim, hout, hP'⟩
  · rw [if_neg hready]
    exact ⟨W, h.tryRecover_idle hready now, h, rfl, hP⟩

/-! ### One shard -/

/-- What `ensure` changes: the dimension, and the length of the two vectors. -/
structure Resized (g g' : Generation) : Prop where
  fields : g' = { g with k := g'.k, data := g'.data, received := g'.received }
  data : ∀ i, g'.data.getD i [] = g.data.getD i []
  received : ∀ i, g'.received.getD i false = g.received.getD i false
  lengths : g'.data.length = g'.received.length
  k_le : g'.k ≤ g'.data.length

theorem ensure_resized (g : Generation) (k : ℕ) (hlen : g.data.length = g.received.length) :
    Resized g (g.ensure k) := by
  rw [g.ensure_eq k hlen]
  refine ⟨rfl, fun i => getD_append_replicate _ _ _ _, fun i => getD_append_replicate _ _ _ _,
    ?_, ?_⟩
  · simp only [List.length_append, List.length_replicate, hlen]
  · simp only [List.length_append, List.length_replicate]
    omega

theorem k_pos (h : Sim O g S) : 0 < g.k := by
  have := O.n_pos
  have := O.encoder.k_range.1
  rw [h.k_eq]
  split <;> assumption

theorem n_le_k (h : Sim O g S) : O.n ≤ g.k := by
  have := O.n_le
  rw [h.k_eq]
  split <;> omega

theorem k_le (h : Sim O g S) : g.k ≤ O.encoder.k := by
  have := O.n_le
  rw [h.k_eq]
  split <;> omega

/-- The generation after data shard `i` is stored. -/
theorem storeData (h : Sim O g S) {g' : Generation} (hr : Resized g g') (hk : g'.k = g.k) {i : ℕ}
    (hi : i < O.n) (now : ℕ) :
    Sim O { g' with
        seenAny := true
        firstNs := now
        data := g'.data.set i (protectedFrame (O.frame i) (O.frame i).length)
        received := g'.received.set i true }
      { S with held := insert i S.held } := by
  -- the vectors were resized for `k`, and the frame is one of the first `n`
  have hlt : i < g'.data.length := hi.trans_le (h.n_le_k.trans (hk ▸ hr.k_le))
  have hlt' : i < g'.received.length := hr.lengths ▸ hlt
  have hf := hr.fields
  exact
    { active := by rw [hf]; exact h.active
      genId := by rw [hf]; exact h.genId
      held_lt := by
        intro j hj
        rcases Finset.mem_insert.mp hj with rfl | hj
        · exact hi
        · exact h.held_lt j hj
      rows_lt := h.rows_lt
      parityReceived := by rw [hf]; exact h.parityReceived
      recovered := by rw [hf]; exact h.recovered
      k_eq := hk.trans h.k_eq
      lengths := by simp only [List.length_set, hr.lengths]
      received := by
        intro j
        rw [List.getD_eq_getElem?_getD, List.getElem?_set]
        by_cases hij : i = j
        · subst hij
          simp [hlt']
        · rw [if_neg hij, ← List.getD_eq_getElem?_getD, hr.received, h.received]
          simp [Ne.symm hij]
      data := by
        intro j hj
        rw [List.getD_eq_getElem?_getD, List.getElem?_set]
        by_cases hij : i = j
        · subst hij
          exact ⟨_, O.frame_le_maxLen hi, le_rfl, by simp [hlt]⟩
        · rw [if_neg hij, ← List.getD_eq_getElem?_getD, hr.data]
          exact h.data j ((Finset.mem_insert.mp hj).resolve_left (Ne.symm hij))
      closeReason := by rw [hf]; exact h.closeReason
      parityCount := by rw [hf]; exact h.parityCount
      parities := by rw [hf]; exact h.parities }

/-- **A data shard.** -/
theorem receiveData {W : Work σ} (h : Sim O W.gen S) (hpub : Takes publish O P) (hP : P W.out)
    {x : ℕ} (hx : x < O.n) (now : ℕ) :
    ∃ W', Fec.receiveData publish (O.dataEnvelope x) (O.frame x) now W = (true, W') ∧
      Sim O W'.gen (S.arrive O.n O.reason.toNat x).2 ∧
      W'.out = O.offerAll publish (S.arrive O.n O.reason.toNat x).1 W.out ∧ P W'.out := by
  have hn := O.n_le
  have hk128 := O.k_le
  have hkpos := h.k_pos
  have hkle := h.k_le
  have hnk := h.n_le_k
  obtain ⟨hindex, hk, hlen⟩ := O.dataEnvelope_toNat hx
  -- the shard announces no fewer frames than the slot has
  have hguard : ¬ (O.encoder.k < W.gen.k ∨
      (W.gen.parityReceived = false ∧ O.encoder.k ≠ W.gen.k)) := by
    rw [h.parityReceived, h.k_eq]
    by_cases hrows : S.rows.Nonempty
    · simp [hrows]; omega
    · simp [hrows]
  have hsize := ensure_resized W.gen O.encoder.k h.lengths
  have hsame : (W.gen.ensure O.encoder.k).k = W.gen.k := by
    rw [Generation.ensure_k, if_neg (by omega)]
  have hreason : (W.gen.ensure O.encoder.k).closeReason = W.gen.closeReason := by rw [hsize.fields]
  obtain ⟨hok, hPnext⟩ := hpub x hx false W.gen.closeReason W.out hP
  have hstored := h.storeData hsize hsame hx
    (if (W.gen.ensure O.encoder.k).firstNs = 0 then now else (W.gen.ensure O.encoder.k).firstNs)
  obtain ⟨W', hrun, hsim, hout, hP'⟩ := tryRecover
    (W := ⟨_, W.stats, (publish (O.frame x) false W.gen.closeReason W.out).2⟩) hstored
    (fun _ => by
      dsimp only
      rw [List.length_set]
      exact hnk.trans (hsame ▸ hsize.k_le)) hpub hPnext now
  refine ⟨W', ?_, ?_, ?_, hP'⟩
  · rw [← hrun, Fec.receiveData]
    simp only [Generation.touch, hindex, hk, hlen]
    rw [if_neg hguard, if_neg (by omega), hreason,
      ← Prod.mk.eta (p := publish (O.frame x) false W.gen.closeReason W.out), hok]
  · rw [Stage.arrive, if_pos hx]
    exact hsim
  · rw [Stage.arrive, if_pos hx, hout, h.closeReason]
    rfl

/-- The parity vector, allocated if it was not yet. -/
theorem parities_opened (h : Sim O g S) :
    (if g.parities.isEmpty then List.replicate 16 [] else g.parities) =
      (List.range 16).map fun r => if r ∈ S.rows then O.payload r else [] := by
  rw [h.parities]
  by_cases hrows : S.rows.Nonempty
  · rw [if_pos hrows]
    rfl
  · rw [if_neg hrows, Finset.not_nonempty_iff_eq_empty.mp hrows]
    rfl

/-- The parity vector after `row` is stored. -/
theorem parities_set (h : Sim O g S) (row : ℕ) :
    (if g.parities.isEmpty then List.replicate 16 [] else g.parities).set row (O.payload row) =
      (List.range 16).map fun r => if r ∈ insert row S.rows then O.payload r else [] := by
  rw [h.parities_opened]
  refine List.ext_getElem (by simp) fun r hr hr' => ?_
  rw [List.getElem_set]
  by_cases heq : row = r
  · simp [heq]
  · simp [heq, Ne.symm heq]

/-- The generation after parity `row` is stored. -/
theorem storeParity (h : Sim O g S) {g' : Generation} (hr : Resized g g') (hk : g'.k = O.n)
    {row : ℕ} (hrow : row < O.p) (now : ℕ) :
    Sim O { g' with
        seenAny := true
        firstNs := now
        closeReason := O.reason.toNat
        parityCount := O.p
        parities := (if g'.parities.isEmpty then List.replicate 16 [] else g'.parities).set row
          (O.payload row)
        parityReceived := true }
      { S with rows := insert row S.rows } := by
  have hf := hr.fields
  have hne : (insert row S.rows).Nonempty := Finset.insert_nonempty _ _
  exact
    { active := by rw [hf]; exact h.active
      genId := by rw [hf]; exact h.genId
      held_lt := h.held_lt
      rows_lt := by
        intro r hmem
        rcases Finset.mem_insert.mp hmem with rfl | hmem
        · exact hrow
        · exact h.rows_lt r hmem
      parityReceived := (decide_eq_true hne).symm
      recovered := by rw [hf]; exact h.recovered
      k_eq := by rw [if_pos hne]; exact hk
      lengths := hr.lengths
      received := fun i => (hr.received i).trans (h.received i)
      data := by
        intro i hi
        rw [hr.data]
        exact h.data i hi
      closeReason := by rw [if_pos hne]
      parityCount := fun _ => rfl
      parities := by
        rw [if_pos hne, hf]
        exact h.parities_set row }

/-- A second parity shard announces the same closure. -/
theorem same_closure (h : Sim O g S) :
    ¬ (g.parityReceived = true ∧ (g.k ≠ O.n ∨ g.parityCount ≠ O.p ∨
      g.closeReason ≠ O.reason.toNat)) := by
  rintro ⟨hrec, hbad⟩
  rw [h.parityReceived, decide_eq_true_eq] at hrec
  rw [h.k_of_rows hrec, h.parityCount hrec, h.closeReason, if_pos hrec] at hbad
  simp at hbad

/-- No frame beyond the last one was received. -/
theorem none_beyond (h : Sim O g S) : ¬ (g.received.drop O.n).any id = true := by
  rw [List.any_eq_true]
  rintro ⟨b, hmem, hb⟩
  obtain ⟨i, hi, rfl⟩ := List.getElem_of_mem hmem
  rw [List.getElem_drop] at hb
  rw [List.length_drop] at hi
  have hheld := h.received (O.n + i)
  rw [List.getD_eq_getElem _ _ (by omega), show g.received[O.n + i] = true from hb] at hheld
  have := h.held_lt _ (of_decide_eq_true hheld.symm)
  omega

/-- Every parity stored so far is as long as the next one. -/
theorem same_width (h : Sim O g S) (row : ℕ) :
    ¬ ((if g.parities.isEmpty then List.replicate 16 [] else g.parities).any fun existing =>
      !existing.isEmpty && existing.length != (O.payload row).length) = true := by
  rw [List.any_eq_true, h.parities_opened]
  rintro ⟨existing, hmem, hbad⟩
  obtain ⟨r, -, rfl⟩ := List.mem_map.mp hmem
  by_cases hr : r ∈ S.rows
  · rw [if_pos hr, O.payload_length, O.payload_length] at hbad
    simp at hbad
  · rw [if_neg hr] at hbad
    simp at hbad

/-- **A parity shard.** -/
theorem receiveParity {W : Work σ} (h : Sim O W.gen S) (hpub : Takes publish O P) (hP : P W.out)
    {row : ℕ} (hrow : row < O.p) (now : ℕ) :
    ∃ W', Fec.receiveParity publish (O.parityEnvelope row) (O.payload row) now W = (true, W') ∧
      Sim O W'.gen (S.arrive O.n O.reason.toNat (O.n + row)).2 ∧
      W'.out = O.offerAll publish (S.arrive O.n O.reason.toNat (O.n + row)).1 W.out ∧
      P W'.out := by
  have hnpos := O.n_pos
  have hnk := h.n_le_k
  have hk := O.parityEnvelope_k row
  obtain ⟨hindex, hcount, -⟩ := O.parityEnvelope_toNat hrow
  have hreason : (O.parityEnvelope row).closeReason.toNat = O.reason.toNat := rfl
  have hsize := ensure_resized W.gen O.n h.lengths
  have hdim : (W.gen.ensure O.n).k = O.n := by
    rw [Generation.ensure_k]
    split <;> omega
  have hwidth := h.same_width row
  rw [show W.gen.parities = (W.gen.ensure O.n).parities by rw [hsize.fields]] at hwidth
  have hstored := h.storeParity hsize hdim hrow
    (if (W.gen.ensure O.n).firstNs = 0 then now else (W.gen.ensure O.n).firstNs)
  obtain ⟨W', hrun, hsim, hout, hP'⟩ := tryRecover
    (W := ⟨_, W.stats, W.out⟩) hstored (fun _ => hdim.ge.trans hsize.k_le) hpub hP now
  have hx : ¬ O.n + row < O.n := by omega
  refine ⟨W', ?_, ?_, ?_, hP'⟩
  · rw [← hrun, Fec.receiveParity]
    simp only [Generation.close, Generation.touch, Generation.otherWidth, hindex, hk, hcount,
      hreason]
    -- all checks on the generation pass
    rw [if_neg h.same_closure, if_neg (by omega), if_neg h.none_beyond, if_neg hwidth,
      Nat.add_sub_cancel_left]
  · rw [Stage.arrive, if_neg hx, Nat.add_sub_cancel_left]
    exact hsim
  · rw [Stage.arrive, if_neg hx, Nat.add_sub_cancel_left]
    exact hout

end Callback

end Sim
end Fec
end PulseFanout
