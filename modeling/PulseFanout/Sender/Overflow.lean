import PulseFanout.Sender.Fanout
import PulseFanout.Sender.Steps

/-!
# Whether a batch fits a queue (`Fanout::enqueue`)

The size of a batch and the size of a queue are configured apart from each other. A datagram is at
most a header, the envelope of a shard and a padded order book, and a batch is at most `batch_size`
datagrams; `Sized` is that bound, and it holds of every batch that either path of `run` hands over,
whatever the ring, the clock, the sockets and the impairment (`run_sized`). A destination with an
empty queue takes a batch exactly if its bytes are within `queue_bytes`, so it takes every batch if
`batch_size` datagrams of the largest size are. With the largest batch and the smallest queue they
are not (`full_batch_overflows`): `parse_args` checks each number by itself.
-/

namespace PulseFanout
namespace Sender

open Framework Msg Multiplex Fec

/-- The largest datagram before it is wrapped: a frame as it is, or a parity shard of the widest. -/
def Config.cap (cfg : Config) : ℕ :=
  if cfg.fecK = 0 then Wire.wireSize .orderBook
  else kEnvelopeSize + (Wire.wireSize .orderBook + 2)

/-- A batch as it is handed over. -/
structure Sized (cfg : Config) (batch : List Datagram) : Prop where
  length : batch.length ≤ cfg.batchSize
  datagrams : ∀ data ∈ batch, data.length ≤ headerSize + cfg.cap

theorem Sized.byteCount {cfg : Config} {batch : List Datagram} (h : Sized cfg batch) :
    byteCount batch ≤ cfg.batchSize * (headerSize + cfg.cap) := by
  have hsum : Sender.byteCount batch ≤ batch.length * (headerSize + cfg.cap) := by
    rw [← List.length_map List.length]
    refine List.sum_le_card_nsmul _ _ ?_
    intro n hn
    obtain ⟨data, hdata, rfl⟩ := List.mem_map.mp hn
    exact h.datagrams data hdata
  exact hsum.trans (Nat.mul_le_mul_right _ h.length)

/-! ### Emitting -/

/-- What is waiting is small enough; the batch may be full. -/
structure Loaded (cfg : Config) (C : Channel) : Prop where
  handed : ∀ batch ∈ C.handed, Sized cfg batch
  length : C.batch.length ≤ cfg.batchSize
  batch : ∀ data ∈ C.batch, data.length ≤ cfg.cap
  pending : ∀ p ∈ C.pending, p.bytes.length ≤ cfg.cap

/-- There is room in the batch. -/
structure Within (cfg : Config) (C : Channel) : Prop extends Loaded cfg C where
  room : C.batch.length < cfg.batchSize

/-- What holds of a channel after a call, whether it succeeds or not. -/
def Fit (cfg : Config) : Channel × Bool → Prop
  | (C, true) => Within cfg C
  | (C, false) => ∀ batch ∈ C.handed, Sized cfg batch

section Channel

variable {cfg : Config} (env : Env) {C : Channel}

theorem Loaded.tick (h : Loaded cfg C) : Loaded cfg C.tick :=
  ⟨h.handed, h.length, h.batch, h.pending⟩

theorem Within.tick (h : Within cfg C) : Within cfg C.tick := ⟨h.toLoaded.tick, h.room⟩

/-- One datagram more. -/
theorem Loaded.concat (h : Within cfg C) {data : Datagram} (hdata : data.length ≤ cfg.cap)
    {C' : Channel} (hhanded : C'.handed = C.handed) (hbatch : C'.batch = C.batch ++ [data])
    (hpending : C'.pending = C.pending) : Loaded cfg C' := by
  refine ⟨?_, ?_, ?_, ?_⟩
  · rw [hhanded]
    exact h.handed
  · rw [hbatch, List.length_append]
    exact h.room
  · rw [hbatch]
    intro x hx
    rcases List.mem_append.mp hx with hx | hx
    · exact h.batch x hx
    · rw [List.mem_singleton.mp hx]
      exact hdata
  · rw [hpending]
    exact h.pending

/-- **A flush** empties the batch. -/
theorem flushBatch_fit (h : Loaded cfg C) : Fit cfg (flushBatch cfg env C) := by
  have hroom : 0 < cfg.batchSize := cfg.batchSize_range.1
  have hframes : Sized cfg (C.batch.map (wrap cfg.key)) := by
    refine ⟨?_, ?_⟩
    · rw [List.length_map]
      exact h.length
    · intro data hdata
      obtain ⟨inner, hinner, rfl⟩ := List.mem_map.mp hdata
      rw [wrap_length]
      exact Nat.add_le_add_left (h.batch inner hinner) _
  have hall : ∀ batch ∈ C.handed ++ [C.batch.map (wrap cfg.key)], Sized cfg batch := by
    intro batch hmem
    rcases List.mem_append.mp hmem with hmem | hmem
    · exact h.handed batch hmem
    · rw [List.mem_singleton.mp hmem]
      exact hframes
  have hnone : ∀ data ∈ ([] : List Datagram), data.length ≤ cfg.cap :=
    fun _ hdata => absurd hdata List.not_mem_nil
  -- the batch is handed to the workers or to the sockets, wrapped either way
  unfold flushBatch
  dsimp only
  split
  · next hnil =>
    refine ⟨h, ?_⟩
    rw [hnil]
    exact hroom
  split
  · exact ⟨⟨hall, Nat.zero_le _, hnone, h.pending⟩, hroom⟩
  split
  · exact ⟨⟨hall, Nat.zero_le _, hnone, h.pending⟩, hroom⟩
  · exact h.handed

theorem queueOrFlush_fit (h : Within cfg C) {data : Datagram} (hdata : data.length ≤ cfg.cap) :
    Fit cfg (queueOrFlush cfg env data C) := by
  -- queueing may fill the batch, and a full batch is flushed
  have hqueued : Loaded cfg (queueDatagram env data C) := by
    unfold queueDatagram
    split
    · next hnil =>
      refine .concat h hdata rfl ?_ rfl
      rw [hnil]
      rfl
    · exact .concat h hdata rfl rfl rfl
  unfold queueOrFlush
  dsimp only
  split
  · exact flushBatch_fit env hqueued
  · next hroom => exact ⟨hqueued, Nat.lt_of_not_le hroom⟩

theorem releasePending_fit (h : Within cfg C) (now : Nanos) (all : Bool) (left i write : ℕ) :
    Fit cfg (releasePending cfg env now all left i write C) := by
  induction left generalizing i write C with
  | zero =>
    exact ⟨⟨h.handed, h.length, h.batch, fun p hp => h.pending p (List.mem_of_mem_take hp)⟩, h.room⟩
  | succ left ih =>
    have hat : (C.pending.getD i default).bytes.length ≤ cfg.cap := by
      rw [List.getD_eq_getElem?_getD]
      cases hp : C.pending[i]? with
      | none => exact Nat.zero_le _
      | some p => exact h.pending p (List.mem_of_getElem? hp)
    unfold releasePending
    dsimp only
    split
    -- an entry that is due goes into the batch, or ends the loop
    · have hqueue := queueOrFlush_fit env h hat
      generalize queueOrFlush cfg env _ C = result at hqueue ⊢
      obtain ⟨C₁, ok⟩ := result
      cases ok with
      | false => exact hqueue
      | true => exact ih hqueue _ _
    -- an entry that is not due moves up; what it leaves behind is an empty datagram
    · refine ih ?_ _ _
      split
      swap
      · exact h
      refine ⟨⟨h.handed, h.length, h.batch, ?_⟩, h.room⟩
      intro p hp
      rcases List.mem_or_eq_of_mem_set hp with hp | rfl
      · rcases List.mem_or_eq_of_mem_set hp with hp | rfl
        · exact h.pending p hp
        · exact hat
      · exact Nat.zero_le _

theorem flushPending_fit (h : Within cfg C) (now : Nanos) (all : Bool) :
    Fit cfg (flushPending cfg env now all C) := releasePending_fit env h now all _ _ _

theorem roll_within (h : Within cfg C) (pct : ℚ) : Within cfg (roll env pct C).2 := by
  unfold roll
  split
  · exact ⟨⟨h.handed, h.length, h.batch, h.pending⟩, h.room⟩
  · exact h

/-- **An emission.** -/
theorem emitDatagram_fit (h : Within cfg C) {data : Datagram} (hdata : data.length ≤ cfg.cap) :
    Fit cfg (emitDatagram cfg env data C) := by
  have hflush := flushPending_fit env h.tick (env.clock C.ticks) false
  unfold emitDatagram
  dsimp only
  generalize flushPending cfg env _ false C.tick = result at hflush ⊢
  obtain ⟨C₁, ok⟩ := result
  cases ok with
  | false => exact hflush
  | true =>
    have hroll := roll_within env (show Within cfg C₁ from hflush) cfg.testDropPct
    dsimp only
    generalize roll env cfg.testDropPct C₁ = result at hroll ⊢
    obtain ⟨drop, C₂⟩ := result
    cases drop with
    -- dropped: nothing is queued
    | true => exact ⟨⟨hroll.handed, hroll.length, hroll.batch, hroll.pending⟩, hroll.room⟩
    | false =>
      dsimp only at hroll ⊢
      have hreorder : Within cfg (if 0 < cfg.testReorderDelayUs then
          roll env cfg.testReorderPct C₂ else (false, C₂)).2 := by
        split
        · exact roll_within env hroll _
        · exact hroll
      generalize (if 0 < cfg.testReorderDelayUs then roll env cfg.testReorderPct C₂
        else (false, C₂)) = result at hreorder ⊢
      obtain ⟨delay, C₃⟩ := result
      cases delay with
      | true =>
        dsimp only at hreorder ⊢
        split
        · exact hreorder.handed
        -- delayed: the datagram is appended to the pending ones
        refine ⟨⟨hreorder.handed, hreorder.length, hreorder.batch, ?_⟩, hreorder.room⟩
        intro p hp
        rcases List.mem_append.mp hp with hp | hp
        · exact hreorder.pending p hp
        · rw [List.mem_singleton.mp hp]
          exact hdata
      | false =>
        have hqueue := queueOrFlush_fit env (show Within cfg C₃ from hreorder) hdata
        dsimp only
        generalize queueOrFlush cfg env data C₃ = result at hqueue ⊢
        obtain ⟨C₄, ok⟩ := result
        cases ok with
        | false => exact hqueue
        | true => exact flushPending_fit env (Within.tick hqueue) _ _

theorem emitAll_fit (h : Within cfg C) {datagrams : List Datagram}
    (hdata : ∀ data ∈ datagrams, data.length ≤ cfg.cap) :
    Fit cfg (emitAll cfg env datagrams C) := by
  induction datagrams generalizing C with
  | nil => exact h
  | cons data datagrams ih =>
    have hfirst := emitDatagram_fit env h (hdata data List.mem_cons_self)
    unfold emitAll
    generalize emitDatagram cfg env data C = result at hfirst ⊢
    obtain ⟨C₁, ok⟩ := result
    cases ok with
    | false => exact hfirst
    | true => exact ih hfirst fun x hx => hdata x (List.mem_cons_of_mem _ hx)

end Channel

/-! ### The loop -/

/-- What holds between two steps of the loop. The fast path may have filled the batch. -/
structure LoopWithin (cfg : Config) (path : Path) (L : Loop) : Prop where
  out : Loaded cfg L.out
  room : path = .general → L.out.batch.length < cfg.batchSize
  maxLen : L.encoder.maxLen ≤ Wire.wireSize .orderBook

section Loop

variable {cfg : Config} {env : Env} {path : Path} {L L' : Loop}

theorem LoopWithin.start (cfg : Config) (env : Env) (path : Path) (readIndex : ℕ) :
    LoopWithin cfg path (.start cfg env readIndex) := by
  refine ⟨⟨?_, Nat.zero_le _, ?_, ?_⟩, fun _ => cfg.batchSize_range.1, Nat.zero_le _⟩
  all_goals exact fun _ hmem => absurd hmem List.not_mem_nil

theorem LoopWithin.within (h : LoopWithin cfg path L) (hpath : path = .general) :
    Within cfg L.out := ⟨h.out, h.room hpath⟩

theorem encoded_length (cfg : Config) (m : Native) :
    (encoded cfg m).length ≤ Wire.wireSize .orderBook := by
  rw [encoded, Wire.bytes_length]
  generalize (setStream cfg.key m).type = t
  cases t <;> decide

theorem length_of_encode {m : Native} {frame : List Byte}
    (h : Wire.encode (setStream cfg.key m) = .ok frame) :
    frame.length ≤ Wire.wireSize .orderBook := by
  rw [encode_setStream h]
  exact encoded_length cfg m

theorem add_maxLen {E E' : Encoder} {frame : List Byte} {bound : ℕ}
    (hadd : E.add frame = (true, E')) (hE : E.maxLen ≤ bound) (hframe : frame.length ≤ bound) :
    E'.maxLen ≤ bound := by
  unfold Encoder.add at hadd
  split at hadd
  · cases hadd
  · cases hadd
    dsimp only
    split
    · exact hframe
    · exact hE

/-- A data shard is an envelope and the frame. -/
theorem dataDatagram_length (hfec : cfg.fecK ≠ 0) (genId : BitVec 32) (index : ℕ)
    {frame : List Byte} (hframe : frame.length ≤ Wire.wireSize .orderBook) :
    (dataDatagram genId index cfg.fecK frame).length ≤ cfg.cap := by
  rw [dataDatagram, List.length_append, writeEnvelope_length, Config.cap, if_neg hfec]
  omega

/-- A parity shard is an envelope and the length and bytes of the longest frame. -/
theorem parity_length (hfec : cfg.fecK ≠ 0) {O : Origin}
    (hmax : O.encoder.maxLen ≤ Wire.wireSize .orderBook) :
    ∀ data ∈ O.built.parity :: O.built.extraParity, data.length ≤ cfg.cap := by
  rw [O.built_parity]
  intro data hdata
  obtain ⟨row, -, rfl⟩ := List.mem_map.mp hdata
  rw [O.parityShard_eq, List.length_append, writeEnvelope_length, O.payload_length, Origin.width,
    Config.cap, if_neg hfec]
  exact Nat.add_le_add_left (Nat.add_le_add_right hmax 2) _

/-- **What is emitted in one step** is small enough, and so is what the encoder has taken. -/
theorem Emits.sized {datagrams : List Datagram} (h : Emits cfg env L datagrams L')
    (hmax : L.encoder.maxLen ≤ Wire.wireSize .orderBook) :
    (∀ data ∈ datagrams, data.length ≤ cfg.cap) ∧
      L'.encoder.maxLen ≤ Wire.wireSize .orderBook := by
  cases h with
  | forward _ hfec _ hencode =>
    refine ⟨fun data hdata => ?_, hmax⟩
    rw [List.mem_singleton.mp hdata, Config.cap, if_pos hfec]
    exact length_of_encode hencode
  | protect _ _ hfec _ hencode hadd =>
    have hframe := length_of_encode hencode
    refine ⟨fun data hdata => ?_, add_maxLen hadd hmax hframe⟩
    rw [List.mem_singleton.mp hdata]
    exact dataDatagram_length hfec _ _ hframe
  | complete _ hfec _ hencode hadd =>
    have hframe := length_of_encode hencode
    refine ⟨fun data hdata => ?_, Nat.zero_le _⟩
    rcases List.mem_cons.mp hdata with rfl | hdata
    · exact dataDatagram_length hfec _ _ hframe
    · exact parity_length hfec (add_maxLen hadd hmax hframe) data hdata
  | close hfec hencoder =>
    exact ⟨parity_length hfec (hencoder ▸ hmax), Nat.zero_le _⟩

variable (hfast : path = .fast → cfg.fecK = 0)
include hfast

/-- **One step**, on either path. -/
theorem LoopWithin.step (h : LoopWithin cfg path L) (hstep : LoopStep cfg env path L L') :
    LoopWithin cfg path L' := by
  cases hstep with
  | tick => exact ⟨h.out.tick, h.room, h.maxLen⟩
  | flush hflush =>
    have hfit := flushBatch_fit env h.out
    rw [hflush] at hfit
    exact ⟨hfit.toLoaded, fun _ => hfit.room, h.maxLen⟩
  | @release now all out hpath hrelease =>
    have hfit := flushPending_fit env (h.within hpath) now all
    rw [hrelease] at hfit
    exact ⟨hfit.toLoaded, fun _ => hfit.room, h.maxLen⟩
  | emit hpath hemits hemit =>
    obtain ⟨hsized, hmax⟩ := hemits.sized h.maxLen
    have hfit := emitAll_fit env (h.within hpath) hsized
    rw [hemit] at hfit
    exact ⟨hfit.toLoaded, fun _ => hfit.room, hmax⟩
  | place loopNow hpath _ hroom hencode =>
    refine ⟨.concat ⟨h.out, hroom⟩ ?_ rfl rfl rfl, fun hgeneral => ?_, h.maxLen⟩
    · rw [Config.cap, if_pos (hfast hpath)]
      exact length_of_encode hencode
    · cases hpath.symm.trans hgeneral
  | lap | empty | progress | idle => exact ⟨h.out, h.room, h.maxLen⟩

omit hfast in
/-- **An exit from within the loop** hands over nothing else. -/
theorem LoopWithin.halted (h : LoopWithin cfg path L) {all : List ReadAnswer} {exit : Exit}
    (hhalted : Halted cfg env path all L exit L') :
    ∀ batch ∈ L'.out.handed, Sized cfg batch := by
  cases hhalted with
  | flush hflush hout =>
    have hfit := flushBatch_fit env h.out
    rw [hflush] at hfit
    rw [hout]
    exact hfit
  | @release now held out L' hpath hrelease hout =>
    have hfit := flushPending_fit env (h.within hpath) now held
    rw [hrelease] at hfit
    rw [hout]
    exact hfit
  | emit hpath hemits hemit hout =>
    have hfit := emitAll_fit env (h.within hpath) (hemits.sized h.maxLen).1
    rw [hemit] at hfit
    rw [hout]
    exact hfit
  | thrown _ _ hout | corrupt _ hout | refused _ _ hout =>
    rw [hout]
    exact h.out.handed

/-- **A whole run**, on either path. -/
theorem Walks.sized {all : List ReadAnswer} {readIndex : ℕ} {Q : Loop → Prop}
    {result : Loop × Option Exit}
    (h : Walks cfg env path all (.start cfg env readIndex) Q result) :
    ∀ batch ∈ result.1.out.handed, Sized cfg batch := by
  have hwithin : ∀ {L}, Steps cfg env path (.start cfg env readIndex) L → LoopWithin cfg path L :=
    fun hsteps => hsteps.keep (fun hL hstep => hL.step hfast hstep) (.start cfg env path readIndex)
  obtain ⟨L, exit⟩ := result
  cases exit with
  | none => exact (hwithin h.1).out.handed
  | some exit =>
    obtain ⟨L₁, hsteps, hhalted⟩ := h
    exact (hwithin hsteps).halted hhalted

end Loop

/-! ### Runs -/

/-- **Every batch of a run is sized.** -/
theorem run_sized (cfg : Config) (env : Env) (readIndex : ℕ) (answers : List ReadAnswer) :
    ∀ batch ∈ (run cfg env readIndex answers).1.out.handed, Sized cfg batch := by
  unfold run
  split
  · next hplain =>
    exact (fastPath_walks cfg hplain.1 env readIndex answers).sized fun _ => hplain.1
  · exact (generalPath_walks cfg env readIndex answers).sized fun hfast => by cases hfast

/-- What `parse_args` has checked of the options used here. -/
structure Config.Accepted (cfg : Config) : Prop where
  key : cfg.key.stream ≠ 0 ∧ cfg.key.epoch ≠ 0
  destinations : 1 ≤ cfg.destinations ∧ cfg.destinations ≤ 256
  repeats : 1 ≤ cfg.repeats
  queueBytes : 65536 ≤ cfg.queueBytes ∧ cfg.queueBytes ≤ 64 * 1024 * 1024
  budget : cfg.queueBytes * cfg.destinations ≤ 1024 * 1024 * 1024
  fecTimeout : cfg.fecTimeoutUs ≠ 0
  drop : 0 ≤ cfg.testDropPct ∧ cfg.testDropPct ≤ 100
  reorder : 0 ≤ cfg.testReorderPct ∧ cfg.testReorderPct ≤ 100

/-- The destination has taken the batch: it is not failed, and the batch is queued. -/
def Admits (cfg : Config) (d : Destination) (batch : List Datagram) : Prop :=
  (d.offer cfg batch).failed = false ∧
    (d.offer cfg batch).queue.map Work.frames = d.queue.map Work.frames ++ [batch]

/-- The guard of `enqueue`. -/
theorem admits_iff {cfg : Config} {d : Destination} (hok : d.failed = false)
    (batch : List Datagram) :
    Admits cfg d batch ↔ d.bytes + byteCount batch ≤ cfg.queueBytes := by
  unfold Admits Destination.offer
  dsimp only
  rw [if_neg (by rw [hok]; exact Bool.false_ne_true)]
  split
  · next hover =>
    refine iff_of_false (fun hadmits => ?_) (Nat.not_le_of_lt hover)
    cases hadmits.1
  · next hfits =>
    refine iff_of_true ⟨hok, ?_⟩ (Nat.le_of_not_lt hfits)
    rw [List.map_append]
    rfl

/-- **When an idle destination takes a batch.** In every state of the fan-out, a destination that is
not failed and has nothing queued takes a batch of the sender exactly if the bytes of the batch are
within `queue_bytes`. A batch that `run` hands over has at most `batch_size` datagrams, of at most
560 bytes without FEC and 579 with it; if so many of that size are within `queue_bytes`, it is
taken. -/
theorem idle_destination_admits (cfg : Config) (env : Env) (readIndex : ℕ)
    (answers : List ReadAnswer) {batch : List Datagram}
    (hbatch : batch ∈ (run cfg env readIndex answers).1.out.handed) {n : ℕ} {S : State}
    (hS : (fanout cfg n).Reachable S) {i : ℕ} (hi : i < n)
    (hok : (S.destinations i).failed = false) (hidle : (S.destinations i).queue = []) :
    Sized cfg batch ∧
      (Admits cfg (S.destinations i) batch ↔ byteCount batch ≤ cfg.queueBytes) ∧
      (cfg.batchSize * (if cfg.fecK = 0 then 560 else 579) ≤ cfg.queueBytes →
        Admits cfg (S.destinations i) batch) := by
  have hempty : (S.destinations i).bytes = 0 := by
    rw [((Inv.of_reachable hS).sound i hi).bytes_eq, hidle]
    rfl
  have hiff := @admits_iff cfg _ hok batch
  rw [hempty, Nat.zero_add] at hiff
  have hsized := run_sized cfg env readIndex answers batch hbatch
  refine ⟨hsized, hiff, fun hfits => hiff.mpr ?_⟩
  have hcap : (if cfg.fecK = 0 then 560 else 579) = headerSize + cfg.cap := by
    unfold Config.cap
    split <;> rfl
  rw [hcap] at hfits
  exact hsized.byteCount.trans hfits

/-! ### A full batch -/

section Full

variable {cfg : Config} (env : Env) {L : Loop} {m : Native}

theorem flushBatch_of_nil {C : Channel} (hC : C.batch = []) :
    flushBatch cfg env C = (C, true) := if_pos hC

theorem flushBatch_many (hmany : 1 < cfg.destinations) {C : Channel} (hC : C.batch ≠ []) :
    flushBatch cfg env C =
      ({ C with
          batch := []
          firstNs := 0
          handed := C.handed ++ [C.batch.map (wrap cfg.key)] }, true) := by
  rw [flushBatch, if_neg hC]
  exact if_pos hmany

variable (cfg) in
/-- Frames that there is room for. -/
theorem fillBatch_replicate (hm : validateFrame m.header m.size = true) (loopNow : Nanos) (n : ℕ)
    (hroom : L.out.batch.length + n ≤ cfg.batchSize)
    (hcount : cfg.count = 0 ∨ L.sent + n ≤ cfg.count) (made : Bool) :
    ∃ L', fillBatch cfg loopNow (List.replicate n (.ok (some m))) made L =
        ⟨[], L', made || decide (n ≠ 0), none⟩ ∧
      L'.out.batch = L.out.batch ++ List.replicate n (encoded cfg m) ∧
      L'.out.handed = L.out.handed ∧ L'.out.pending = L.out.pending := by
  induction n generalizing L made with
  | zero => exact ⟨L, by simp [fillBatch], by simp, rfl, rfl⟩
  | succ n ih =>
    rw [List.replicate_succ, fillBatch, if_pos (by omega)]
    dsimp only
    rw [encode_of_valid hm]
    dsimp only
    -- each frame takes one place of the batch
    have hroom' : (L.out.place loopNow (encoded cfg m)).batch.length + n ≤ cfg.batchSize := by
      rw [Channel.place, List.length_append, List.length_singleton]
      omega
    have hcount' : cfg.count = 0 ∨ L.sent + 1 + n ≤ cfg.count := by omega
    obtain ⟨L', hfill, hbatch, hhanded, hpending⟩ := ih (L := { L with
      reads := L.reads ++ [.ok (some m)]
      taken := L.taken ++ [(L.readIndex, m)]
      out := L.out.place loopNow (encoded cfg m)
      sent := L.sent + 1
      readIndex := L.readIndex + 1 }) hroom' hcount' true
    refine ⟨L', ?_, ?_, hhanded, hpending⟩
    · rw [hfill]
      simp
    · rw [hbatch]
      simp [Channel.place, List.replicate_succ]

/-- A full batch is flushed, and the loop goes on. -/
theorem handOver_full (hmany : 1 < cfg.destinations) (hfull : L.out.batch.length = cfg.batchSize)
    (loopNow : Nanos) :
    ∃ L', handOver cfg env loopNow true L = (L', .again) ∧ L'.out.batch = [] ∧
      L'.out.pending = L.out.pending ∧
      L'.out.handed = L.out.handed ++ [L.out.batch.map (wrap cfg.key)] := by
  have hne : L.out.batch ≠ [] := by
    intro hnil
    have hpositive := cfg.batchSize_range.1
    rw [← hfull, hnil] at hpositive
    cases hpositive
  unfold handOver
  rw [if_pos (Nat.le_of_eq hfull.symm), flushBatch_many env hmany hne]
  dsimp only
  rw [flushBatch_of_nil env rfl]
  exact ⟨_, rfl, rfl, rfl, rfl⟩

theorem finishRun_of_nil (hfec : cfg.fecK = 0) (hbatch : L.out.batch = [])
    (hpending : L.out.pending = []) :
    finishRun cfg env L = ({ L with out := L.out.tick }, none) := by
  have htick : L.out.tick.pending = [] := hpending
  unfold finishRun
  rw [closeGeneration_of_plain env L hfec]
  dsimp only
  rw [flushPending_of_nil htick]
  dsimp only
  rw [flushBatch_of_nil env (C := L.out.tick) hbatch]

theorem fastLoop_nil (turns : ℕ) (L : Loop) : fastLoop cfg env turns [] L = (L, none) := by
  cases turns with
  | zero => rfl
  | succ turns => exact if_pos (.inl rfl)

/-- With an empty batch nothing is due, and a turn goes straight to the ring. -/
theorem fastTurn_of_nil (hfec : cfg.fecK = 0) (hL : L.out.batch = [])
    {answers rest : List ReadAnswer} {L₁ : Loop} {made : Bool}
    (hfill : fillBatch cfg (env.clock L.out.ticks) answers false { L with out := L.out.tick } =
      ⟨rest, L₁, made, none⟩) :
    fastTurn cfg env answers L = (rest, handOver cfg env (env.clock L.out.ticks) made L₁) := by
  have hflush : flushDue cfg env (env.clock L.out.ticks) { L with out := L.out.tick } =
      ({ L with out := L.out.tick }, none) := if_neg fun hdue => hdue.1 hL
  unfold fastTurn
  dsimp only
  rw [hflush]
  dsimp only
  rw [closeDue_of_plain env _ hfec]
  dsimp only
  rw [hfill]

variable (cfg) in
/-- **A full batch is handed over** if the ring has `batch_size` frames at once. -/
theorem run_full_batch (hfec : cfg.fecK = 0) (hcfg : cfg.Unimpaired)
    (hmany : 1 < cfg.destinations) (hcount : cfg.count = 0 ∨ cfg.batchSize ≤ cfg.count)
    (hm : validateFrame m.header m.size = true) (readIndex : ℕ) :
    (run cfg env readIndex (List.replicate cfg.batchSize (.ok (some m)))).1.out.handed =
      [List.replicate cfg.batchSize (wrap cfg.key (encoded cfg m))] := by
  have hpositive : cfg.batchSize ≠ 0 := Nat.ne_of_gt cfg.batchSize_range.1
  -- the first turn fills the batch and hands it over, and then there are no more answers
  obtain ⟨L₁, hfill, hbatch, hhanded, hpending⟩ := fillBatch_replicate cfg
    (L := { Loop.start cfg env readIndex with out := (Loop.start cfg env readIndex).out.tick }) hm
    (env.clock (Loop.start cfg env readIndex).out.ticks) cfg.batchSize
    (Nat.le_of_eq (Nat.zero_add _)) (hcount.imp_right fun hle => (Nat.zero_add _).trans_le hle)
    false
  replace hbatch : L₁.out.batch = List.replicate cfg.batchSize (encoded cfg m) := hbatch
  obtain ⟨L₂, hover, hbatch₂, hpending₂, hhanded₂⟩ := handOver_full env hmany (L := L₁)
    (by rw [hbatch, List.length_replicate]) (env.clock (Loop.start cfg env readIndex).out.ticks)
  rw [decide_eq_true hpositive] at hfill
  have hturn := fastTurn_of_nil env hfec rfl hfill
  rw [Bool.or_true, hover] at hturn
  have hgo : ¬ (List.replicate cfg.batchSize (ReadAnswer.ok (some m)) = [] ∨
      (cfg.count ≠ 0 ∧ cfg.count ≤ (Loop.start cfg env readIndex).sent)) := by
    rw [List.replicate_eq_nil_iff]
    rintro (hzero | ⟨hcounted, hle⟩)
    · exact hpositive hzero
    · exact hcounted (Nat.le_zero.mp hle)
  have hloop : fastLoop cfg env (List.replicate cfg.batchSize (ReadAnswer.ok (some m))).length
      (List.replicate cfg.batchSize (.ok (some m))) (.start cfg env readIndex) = (L₂, none) := by
    obtain ⟨b, hb⟩ := Nat.exists_eq_succ_of_ne_zero hpositive
    rw [List.length_replicate, hb, fastLoop, ← hb, if_neg hgo, hturn]
    exact fastLoop_nil env b L₂
  rw [run, if_pos ⟨hfec, hcfg.drop, hcfg.reorder⟩, fastPath, hloop]
  dsimp only
  rw [finishRun_of_nil env hfec hbatch₂ (hpending₂.trans hpending)]
  change L₂.out.handed = _
  rw [hhanded₂, hhanded, hbatch, List.map_replicate]
  rfl

end Full

/-- Two destinations with the smallest queues, and batches of the given size. -/
def smallQueues (batchSize : ℕ) (h : 1 ≤ batchSize ∧ batchSize ≤ 1024) : Config :=
  { Config.standard ⟨11, 12⟩ with
    destinations := 2
    queueBytes := 65536
    batchSize := batchSize
    batchSize_range := h }

theorem hundred_trades_admitted :
    Admits (smallQueues 100 (by decide)) {} (List.replicate 100
      (wrap ⟨11, 12⟩ (encoded (smallQueues 100 (by decide)) (.trade Wire.goldenTrade)))) := by
  have hbatch := run_full_batch (smallQueues 100 (by decide)) ⟨fun _ => 0, fun _ => 0,
    fun _ => .unknown⟩ rfl ⟨rfl, rfl⟩ (by decide) (.inl rfl) (m := .trade Wire.goldenTrade)
    (by decide +kernel) 0
  exact (idle_destination_admits (smallQueues 100 (by decide)) _ 0 _
    (by rw [hbatch]; exact List.mem_singleton_self _) (n := 2) ⟨[], rfl⟩ (i := 0) (by decide) rfl
    rfl).2.2 (by decide)

/-- **A batch may be larger than a whole queue.** With batches of 1024 and queues of 65536 bytes,
both within what `parse_args` accepts, the first full batch isolates every destination, idle as it
is. -/
theorem full_batch_overflows :
    ¬ ∀ (cfg : Config), cfg.Accepted → 1 < cfg.destinations →
      ∀ (env : Env) (readIndex : ℕ) (answers : List ReadAnswer),
      ∀ batch ∈ (run cfg env readIndex answers).1.out.handed,
      ∀ (S : State), (fanout cfg cfg.destinations).Reachable S → ∀ i < cfg.destinations,
      (S.destinations i).failed = false → (S.destinations i).queue = [] →
      Admits cfg (S.destinations i) batch := by
  intro h
  let cfg := smallQueues 1024 (by decide)
  have hbatch := run_full_batch cfg ⟨fun _ => 0, fun _ => 0, fun _ => .unknown⟩ rfl
    ⟨rfl, rfl⟩ (by decide) (.inl rfl) (m := .trade Wire.goldenTrade) (by decide +kernel) 0
  have hadmits := h cfg ⟨by decide, by decide, by decide, by decide, by decide, by decide,
      by decide, by decide⟩ (by decide) _ 0 _ _ (by rw [hbatch]; exact List.mem_singleton_self _)
    (fanout cfg cfg.destinations).start ⟨[], rfl⟩ 0 (by decide) rfl rfl
  have hlength : (wrap cfg.key (encoded cfg (.trade Wire.goldenTrade))).length = 220 := by
    rw [wrap_length, encoded, Wire.bytes_length]
    rfl
  rw [admits_iff rfl, byteCount, List.map_replicate, List.sum_replicate, hlength] at hadmits
  exact absurd hadmits (by decide)

end Sender
end PulseFanout
