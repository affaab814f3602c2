import PulseFanout.Sender.Steps

/-!
# The generations of a run (`sender.cpp`, `run` with FEC)

Data shards go out before the generation they belong to is closed, and a generation may be closed at
three places of the loop: when it is full, when it has waited too long, and after the loop. `Framed`
is what none of them breaks. What is written consists of the closed generations, numbered from zero,
and of the data shards of the frames in the encoder, and these are the shards `close` will build
(`Loop.opened_eq`), so that the parity shards complete them.

Every step of the loop keeps `Framed`, and between two steps the encoder has room (`Between.step`),
so that it refuses no frame. After the loop the encoder is empty and the batch is flushed, and what
`Framed` says of what is written is then said of what was handed over (`run_well_framed`).

An exit from within the loop leaves a generation without its parity. Errors in sending aside, there
are two, a corrupt frame on the ring (`corrupt_frame_cuts_generation`) and one that is no message.
-/

namespace PulseFanout
namespace Sender

open Framework Msg Multiplex Fec

/-! ### What is written -/

/-- The data shards of the frames in the encoder, as they were sent. -/
def Loop.opened (cfg : Config) (L : Loop) : List Datagram :=
  L.encoder.frames.zipIdx.map fun (frame, i) => dataDatagram L.fecGenId i cfg.fecK frame

/-- Generation `g` of a sender. -/
structure Numbered (cfg : Config) (g : ℕ) (O : Origin) : Prop where
  genId : O.genId = BitVec.ofNat 32 g
  k : O.encoder.k = cfg.fecK
  parity : O.p = cfg.fecParity
  reason : O.reason.toNat ≤ 2

/-- What an answer of `ring.read` adds to the frames read, and the next index. -/
def follow (R : ℕ × List (ℕ × Native)) : ReadAnswer → ℕ × List (ℕ × Native)
  | .ok (some m) => (R.1 + 1, R.2 ++ [(R.1, m)])
  | .lapped resume => (resume, R.2)
  | _ => R

/-- What is written are the generations `gens` and what is open, and they hold the frames read. -/
structure Framed (cfg : Config) (start : ℕ) (gens : List Origin) (L : Loop) : Prop where
  pending : L.out.pending = []
  current : L.out.Current cfg
  written : L.out.written cfg =
    (gens.flatMap (fun O => O.built.shards) ++ L.opened cfg).map (wrap cfg.key)
  genId : L.fecGenId = BitVec.ofNat 32 gens.length
  k : L.encoder.k = cfg.fecK
  parity : L.encoder.parityCount = cfg.fecParity
  numbered : ∀ g O, gens[g]? = some O → Numbered cfg g O
  split : gens.flatMap (fun O => O.encoder.frames) ++ L.encoder.frames =
    L.taken.map fun t => encoded cfg t.2
  reading : (L.readIndex, L.taken) = L.reads.foldl follow (start, [])
  valid : ∀ t ∈ L.taken,
    validateFrame (setStream cfg.key t.2).header (setStream cfg.key t.2).size = true

namespace Framed

variable {cfg : Config} {env : Env} {start : ℕ} {gens : List Origin} {L : Loop}

theorem initial (env : Env) (hfec : cfg.fecK ≠ 0) (readIndex : ℕ) :
    Framed cfg readIndex [] (.start cfg env readIndex) := by
  refine ⟨rfl, fun _ => rfl, rfl, rfl, if_neg hfec, rfl, fun g O hO => ?_, rfl, rfl, fun t ht => ?_⟩
  · cases hO
  · cases ht

theorem out (h : Framed cfg start gens L) {out : Channel} (hout : Wrote cfg [] L.out out) :
    Framed cfg start gens { L with out } where
  pending := hout.pending.trans h.pending
  current := hout.current h.current
  written := hout.written.trans ((List.append_nil _).trans h.written)
  genId := h.genId
  k := h.k
  parity := h.parity
  numbered := h.numbered
  split := h.split
  reading := h.reading
  valid := h.valid

/-- **A frame is added** to the open generation, and its data shard is sent. -/
theorem add (h : Framed cfg start gens L) {m : Native} {frame : List Byte} {encoder : Encoder}
    {out : Channel} (hencode : Wire.encode (setStream cfg.key m) = .ok frame)
    (hadd : L.encoder.add frame = (true, encoder))
    (hout : Wrote cfg [dataDatagram L.fecGenId L.encoder.size cfg.fecK frame] L.out out)
    (fecFirstNs lastProgress : Nanos) :
    Framed cfg start gens { L.took m with encoder, fecFirstNs, lastProgress, out } := by
  have hok := Encoder.add_ok (E := L.encoder) (f := frame) (by rw [hadd])
  rw [hadd] at hok
  obtain ⟨hk, hparity, hframes⟩ := hok
  dsimp only at hk hparity hframes
  refine ⟨hout.pending.trans h.pending, hout.current h.current, ?_, h.genId, hk.trans h.k,
    hparity.trans h.parity, h.numbered, ?_, ?_, ?_⟩
  · -- the frame is the last one of the open generation
    have hopened : Loop.opened cfg { L.took m with encoder, fecFirstNs, lastProgress, out } =
        L.opened cfg ++ [dataDatagram L.fecGenId L.encoder.size cfg.fecK frame] := by
      unfold Loop.opened
      dsimp only
      rw [hframes, List.zipIdx_append, List.map_append, Nat.zero_add]
      rfl
    rw [hout.written, h.written, ← List.map_append, List.append_assoc, hopened]
  · rw [Loop.took, List.map_append, ← h.split, List.append_assoc, hframes]
    rw [List.map_singleton, encoded, ← encode_setStream hencode]
  · rw [Loop.took, List.foldl_append, ← h.reading]
    rfl
  · intro t ht
    rcases List.mem_append.mp ht with ht | ht
    · exact h.valid t ht
    · rw [List.mem_singleton.mp ht]
      exact valid_of_encode hencode

end Framed

/-- The data shards that went out one by one are those `close` builds. -/
theorem Loop.opened_eq {cfg : Config} {L : Loop} {O : Origin} (hk : L.encoder.k = cfg.fecK)
    (hencoder : O.encoder = L.encoder) (hgenId : O.genId = L.fecGenId) :
    L.opened cfg = O.built.data := by
  have hclose := O.close_eq
  have hempty : ¬ O.encoder.empty = true := fun hnil => O.nonempty (List.isEmpty_iff.mp hnil)
  rw [Encoder.close, if_neg hempty] at hclose
  have hdata := congrArg (fun r => BuiltGeneration.data r.1) (Except.ok.inj hclose)
  rw [← hdata, opened, ← hk, ← hencoder, ← hgenId]

/-- **A generation is closed.** -/
theorem Framed.close {cfg : Config} {start : ℕ} {gens : List Origin} {L : Loop}
    (h : Framed cfg start gens L) {O : Origin} (hencoder : O.encoder = L.encoder)
    (hgenId : O.genId = L.fecGenId) (hreason : O.reason.toNat ≤ 2) {out : Channel}
    (hout : Wrote cfg (O.built.parity :: O.built.extraParity) L.out out) :
    Framed cfg start (gens ++ [O]) { L.closed O.encoder with out } := by
  have hk : O.encoder.k = cfg.fecK := by rw [hencoder, h.k]
  have hparity : O.encoder.parityCount = cfg.fecParity := by rw [hencoder, h.parity]
  refine ⟨hout.pending.trans h.pending, hout.current h.current, ?_, ?_, hk, hparity, ?_, ?_,
    h.reading, h.valid⟩
  · -- the parity shards complete what is open
    have hopened : L.opened cfg = O.built.data := L.opened_eq h.k hencoder hgenId
    have hnothing : Loop.opened cfg { L.closed O.encoder with out } = [] := rfl
    rw [hout.written, h.written, hopened, hnothing, ← List.map_append, List.append_nil,
      List.flatMap_append, List.append_assoc]
    simp only [List.flatMap_cons, List.flatMap_nil, List.append_nil, BuiltGeneration.shards]
  · rw [List.length_append, List.length_singleton, BitVec.ofNat_add, ← h.genId]
    rfl
  · intro g O' hO'
    -- an earlier generation, this one, or none
    rcases Nat.lt_trichotomy g gens.length with hg | hg | hg
    · rw [List.getElem?_append_left hg] at hO'
      exact h.numbered g O' hO'
    · subst hg
      rw [List.getElem?_concat_length] at hO'
      cases hO'
      exact ⟨hgenId.trans h.genId, hk, hparity, hreason⟩
    · rw [List.getElem?_eq_none (by rw [List.length_append, List.length_singleton]; omega)] at hO'
      cases hO'
  · have hsplit := h.split
    rw [← hencoder] at hsplit
    rw [List.flatMap_append]
    simp only [List.flatMap_cons, List.flatMap_nil, List.append_nil]
    exact (List.append_nil _).trans hsplit

/-! ### Steps and runs -/

/-- What is written are complete generations and an open one that is not full. -/
structure Between (cfg : Config) (start : ℕ) (L : Loop) : Prop where
  room : L.encoder.frames.length < cfg.fecK
  framed : ∃ gens, Framed cfg start gens L

section Runs

variable {cfg : Config} {env : Env} {start : ℕ} {L L' : Loop}

/-- **One step.** -/
theorem Between.step (hcfg : cfg.Unimpaired) (hfec : cfg.fecK ≠ 0) (h : Between cfg start L)
    (hstep : LoopStep cfg env .general L L') : Between cfg start L' := by
  obtain ⟨hroom, gens, hframed⟩ := h
  have hclosed : 0 < cfg.fecK := Nat.pos_of_ne_zero hfec
  cases hstep with
  | tick => exact ⟨hroom, gens, hframed.out (.tick L.out)⟩
  | flush hflush => exact ⟨hroom, gens, hframed.out (flushBatch_of_ok hflush).1⟩
  | release _ hrelease =>
    -- nothing is held back
    rw [flushPending_of_nil hframed.pending] at hrelease
    cases hrelease
    exact ⟨hroom, gens, hframed⟩
  | emit _ hemits hemit =>
    cases hemits with
    | forward _ hzero => exact absurd hzero hfec
    | @protect m frame encoder loopNow fecFirstNs _ _ _ hencode hadd hopen =>
      have hadded := hframed.add hencode hadd (emitAll_of_ok hcfg hframed.pending hemit)
        fecFirstNs loopNow
      refine ⟨?_, gens, hadded⟩
      -- an encoder that is not full has fewer frames than `k`
      refine Nat.lt_of_le_of_ne (hadded.k ▸ Encoder.frames_le _) fun heq => ?_
      have hfull := beq_eq_false_iff_ne.mp hopen
      exact hfull (heq.trans hadded.k.symm)
    | @complete m frame O loopNow _ _ _ hencode hadd hgenId hreason =>
      -- two steps in one: the frame is added, and then the generation is closed
      unfold emitAll at hemit
      split at hemit
      · cases hemit
      next out₁ hdata =>
      have hadded := hframed.add hencode hadd (emitDatagram_of_ok hcfg hframed.pending hdata)
        L.fecFirstNs loopNow
      have hparity := emitAll_of_ok hcfg hadded.pending hemit
      have hknown : O.reason.toNat ≤ 2 := by rw [hreason]; decide
      exact ⟨hclosed, gens ++ [O], hadded.close rfl hgenId hknown hparity⟩
    | close _ hencoder hgenId hreason =>
      exact ⟨hclosed, _, hframed.close hencoder hgenId hreason
        (emitAll_of_ok hcfg hframed.pending hemit)⟩
  | place _ hpath => cases hpath
  | lap | empty =>
    refine ⟨hroom, gens, hframed.pending, hframed.current, hframed.written, hframed.genId,
      hframed.k, hframed.parity, hframed.numbered, hframed.split, ?_, hframed.valid⟩
    rw [List.foldl_append, ← hframed.reading]
    rfl
  | progress | idle =>
    exact ⟨hroom, gens, hframed.pending, hframed.current, hframed.written, hframed.genId,
      hframed.k, hframed.parity, hframed.numbered, hframed.split, hframed.reading, hframed.valid⟩

theorem Steps.between (hcfg : cfg.Unimpaired) (hfec : cfg.fecK ≠ 0)
    (h : Steps cfg env .general (.start cfg env start) L) : Between cfg start L :=
  h.keep (fun hL hstep => hL.step hcfg hfec hstep)
    ⟨Nat.pos_of_ne_zero hfec, [], .initial env hfec start⟩

/-- A frame the encoder takes. -/
theorem add_of_room {E : Encoder} {frame : List Byte} (hroom : E.frames.length < E.k)
    (hlen : 1 ≤ frame.length ∧ frame.length ≤ Wire.maxFrame) : (E.add frame).1 = true := by
  rw [Encoder.add, dif_neg (by omega)]

/-- **A run is not ended by the encoder**, which has room for every frame. -/
theorem generalPath_not_refused (hcfg : cfg.Unimpaired) (hfec : cfg.fecK ≠ 0)
    (answers : List ReadAnswer) : (generalPath cfg env start answers).2 ≠ some .refused := by
  have hwalks := generalPath_walks cfg env start answers
  generalize generalPath cfg env start answers = result at hwalks ⊢
  obtain ⟨L', exit⟩ := result
  rintro rfl
  obtain ⟨L, hsteps, hhalted⟩ := hwalks
  obtain ⟨hroom, gens, hframed⟩ := Steps.between hcfg hfec hsteps
  -- between two steps the open generation is not full
  cases hhalted with
  | @refused m _ _ hadd =>
    have hlen : 1 ≤ (encoded cfg m).length ∧ (encoded cfg m).length ≤ Wire.maxFrame := by
      have hbounds := Wire.wireSize_bounds (setStream cfg.key m).type
      rw [encoded, Wire.bytes_length]
      omega
    rw [add_of_room (hframed.k.symm ▸ hroom) hlen] at hadd
    cases hadd

/-- **A run that leaves its loop** has written complete generations. -/
theorem generalPath_framed (hcfg : cfg.Unimpaired) (hfec : cfg.fecK ≠ 0)
    {answers : List ReadAnswer} (hdone : generalPath cfg env start answers = (L, none)) :
    Ended cfg answers L ∧ ∃ gens, Framed cfg start gens L ∧
      L.out.handed.flatten = (gens.flatMap fun O => O.built.shards).map (wrap cfg.key) ∧
      gens.flatMap (fun O => O.encoder.frames) = L.taken.map fun t => encoded cfg t.2 := by
  have hwalks := generalPath_walks cfg env start answers
  rw [hdone] at hwalks
  obtain ⟨hsteps, hended⟩ := hwalks
  obtain ⟨-, gens, hframed⟩ := Steps.between hcfg hfec hsteps
  have hnil := hended.encoder hfec
  -- the final flush has closed the last generation and emptied the batch
  have hopened : L.opened cfg = [] := by
    rw [Loop.opened, hnil]
    rfl
  refine ⟨hended, gens, hframed, ?_, ?_⟩
  · have hwritten := hframed.written
    rw [Channel.written, hended.batch, hopened, List.append_nil] at hwritten
    exact (List.append_nil _).symm.trans hwritten
  · have hsplit := hframed.split
    rwa [hnil, List.append_nil] at hsplit

end Runs

variable {cfg : Config}

/-- Without a lap the indices of the frames read are consecutive. -/
theorem follow_consecutive (start : ℕ) {used : List ReadAnswer}
    (hlap : ∀ resume, .lapped resume ∉ used) :
    (used.foldl follow (start, [])).1 = start + (used.foldl follow (start, [])).2.length ∧
      (used.foldl follow (start, [])).2.map Prod.fst =
        List.range' start (used.foldl follow (start, [])).2.length := by
  induction used using List.reverseRecOn with
  | nil => exact ⟨rfl, rfl⟩
  | append_singleton used answer ih =>
    obtain ⟨hnext, hindices⟩ := ih fun resume hmem => hlap resume (List.mem_append_left _ hmem)
    rw [List.foldl_append, List.foldl_cons, List.foldl_nil]
    generalize used.foldl follow (start, []) = R at hnext hindices ⊢
    match answer with
    | .ok (some m) =>
      simp only [follow, List.length_append, List.length_singleton, List.map_append, hindices,
        List.range'_concat, hnext, Nat.one_mul]
      exact ⟨rfl, rfl⟩
    | .ok none => exact ⟨hnext, hindices⟩
    | .lapped resume =>
      exact absurd (List.mem_append_right _ (List.mem_singleton_self _)) (hlap resume)
    | .corrupt => exact ⟨hnext, hindices⟩
    | .empty => exact ⟨hnext, hindices⟩

/-- Generation `g` as it goes out: `n` data shards, in order and as `close` builds them, and the
parity shards, which announce `n`. -/
structure Complete (cfg : Config) (g : ℕ) (O : Origin) : Prop where
  close : O.encoder.close O.genId O.reason = .ok (O.built, O.encoder.reset)
  size : 1 ≤ O.n ∧ O.n ≤ cfg.fecK
  genId : ∀ shard ∈ O.built.shards, (readEnvelope shard).genId = BitVec.ofNat 32 g
  indices : O.built.data.map (fun shard => (readEnvelope shard).index.toNat) = List.range O.n
  carried : O.built.data.map (fun shard => shard.drop kEnvelopeSize) = O.encoder.frames
  announced : (O.built.parity :: O.built.extraParity).map
    (fun shard => (readEnvelope shard).k.toNat) = List.replicate cfg.fecParity O.n

theorem Numbered.complete {g : ℕ} {O : Origin} (h : Numbered cfg g O) : Complete cfg g O where
  close := O.close_eq
  size := ⟨O.n_pos, h.k ▸ O.n_le⟩
  genId := by
    intro shard hshard
    rw [O.built_shards] at hshard
    obtain ⟨x, -, rfl⟩ := List.mem_map.mp hshard
    rw [O.shard_genId]
    exact h.genId
  indices := by
    rw [Origin.built, List.map_map]
    refine (List.map_congr_left fun i hi => ?_).trans (List.map_id _)
    rw [Function.comp_apply, O.dataShard_eq, readEnvelope_append]
    exact (O.dataEnvelope_toNat (List.mem_range.mp hi)).1
  carried := by
    rw [Origin.built, List.map_map]
    refine List.ext_getElem (by simp [Origin.n]) fun i hi hi' => ?_
    rw [List.getElem_map, List.getElem_range, Function.comp_apply, O.dataShard_eq,
      List.drop_left' (writeEnvelope_length _), Origin.frame, List.getD_eq_getElem _ _ hi']
  announced := by
    rw [O.built_parity, List.map_map, ← h.parity]
    refine List.eq_replicate_iff.mpr ⟨by simp, fun k hk => ?_⟩
    obtain ⟨row, -, rfl⟩ := List.mem_map.mp hk
    rw [Function.comp_apply, O.parityShard_eq, readEnvelope_append]
    exact O.parityEnvelope_k row

/-- What a run of the FEC path is to have done when it is over. -/
structure WellFramed (cfg : Config) (start : ℕ) (answers : List ReadAnswer) (L : Loop)
    (gens : List Origin) : Prop where
  /-- The datagrams flushed are those of complete generations, one after the other. -/
  flushed : L.out.handed.flatten = (gens.flatMap fun O => O.built.shards).map (wrap cfg.key)
  complete : ∀ g O, gens[g]? = some O → Complete cfg g O
  /-- Every frame read is in one of them, in the order of reading. -/
  frames : (gens.flatMap fun O => O.encoder.frames) = L.taken.map fun t => encoded cfg t.2
  /-- The frames read are those of the first answers, consecutive unless the reader is lapped. -/
  reading : ∃ used, used <+: answers ∧ (L.readIndex, L.taken) = used.foldl follow (start, []) ∧
    ((∀ resume, .lapped resume ∉ used) → L.taken.map Prod.fst = List.range' start L.taken.length)
  encoder : L.encoder.empty = true
  /-- A single destination has been sent every batch, as often as configured. -/
  sent : cfg.destinations ≤ 1 → L.out.sent = L.out.handed.flatMap (transmission cfg)

/-- **The framing of generations.** With FEC and without impairment, whatever the clock, the flushes
and the ring answer, a run that is not ended by an error in sending, by a corrupt frame or by one
that `encode` rejects leaves its loop and is well framed. -/
theorem run_well_framed {cfg : Config} (hcfg : cfg.Unimpaired) (hfec : cfg.fecK ≠ 0) (env : Env)
    (start : ℕ) (answers : List ReadAnswer)
    (hsend : (generalPath cfg env start answers).2 ≠ some .sendError)
    (hcorrupt : (generalPath cfg env start answers).2 ≠ some .corrupt)
    (hthrown : ∀ error, (generalPath cfg env start answers).2 ≠ some (.thrown error)) :
    (generalPath cfg env start answers).2 = none ∧
      ∃ gens, WellFramed cfg start answers (generalPath cfg env start answers).1 gens := by
  have hroom : (generalPath cfg env start answers).2 ≠ some .refused :=
    generalPath_not_refused hcfg hfec answers
  have hframed := fun L (hdone : generalPath cfg env start answers = (L, none)) =>
    generalPath_framed hcfg hfec hdone
  generalize generalPath cfg env start answers = result at hsend hcorrupt hthrown hroom hframed ⊢
  obtain ⟨L, exit⟩ := result
  cases exit with
  | some exit =>
    cases exit with
    | sendError => exact absurd rfl hsend
    | corrupt => exact absurd rfl hcorrupt
    | thrown error => exact absurd rfl (hthrown error)
    | refused => exact absurd rfl hroom
  | none =>
    obtain ⟨hended, gens, hframed, hflushed, hframes⟩ := hframed L rfl
    obtain ⟨rest, hrest, -⟩ := hended.reads
    refine ⟨rfl, gens, hflushed, fun g O hO => (hframed.numbered g O hO).complete, hframes,
      ⟨L.reads, ⟨rest, hrest⟩, hframed.reading, fun hlap => ?_⟩,
      List.isEmpty_iff.mpr (hended.encoder hfec), hframed.current⟩
    have hindices := (follow_consecutive start hlap).2
    rwa [← hframed.reading] at hindices

/-- Generations of two frames, one datagram in a batch. -/
def pairs : Config :=
  { Config.standard ⟨11, 12⟩ with
    fecK := 2
    batchSize := 1
    batchSize_range := by decide
    fecK_le := by decide }

/-- A clock that stands still, and a socket that takes everything. -/
def smooth : Env := ⟨fun _ => 0, fun _ => 0, fun _ => .datagram [.took 1 true]⟩

/-- Three frames, and then a stop: the second generation is closed with one frame. -/
def threeFrames : List ReadAnswer :=
  [.ok (some (.trade Wire.goldenTrade)), .ok (some (.trade Wire.goldenTrade)), .empty,
    .ok (some (.trade Wire.goldenTrade))]

theorem three_frames_framed :
    (∃ gens, WellFramed pairs 0 threeFrames (generalPath pairs smooth 0 threeFrames).1 gens) ∧
      (generalPath pairs smooth 0 threeFrames).1.out.handed.length = 5 := by
  have hexit : (generalPath pairs smooth 0 threeFrames).2 = none := by decide +kernel
  refine ⟨(run_well_framed ⟨rfl, rfl⟩ (by decide) smooth 0 threeFrames ?_ ?_ ?_).2,
    by decide +kernel⟩
  · simp only [hexit, ne_eq, reduceCtorEq, not_false_eq_true]
  · simp only [hexit, ne_eq, reduceCtorEq, not_false_eq_true]
  · simp only [hexit, ne_eq, reduceCtorEq, not_false_eq_true, implies_true]

/-- **A corrupt frame on the ring cuts a generation short.** No send fails, but `run` returns at
once: the data shard that went out is not followed by parity, and its frame is in the encoder. -/
theorem corrupt_frame_cuts_generation :
    ¬ ∀ (cfg : Config) (env : Env) (start : ℕ) (answers : List ReadAnswer), cfg.Unimpaired →
      cfg.fecK ≠ 0 → (generalPath cfg env start answers).2 ≠ some .sendError →
      ∃ gens, WellFramed cfg start answers (generalPath cfg env start answers).1 gens := by
  intro h
  obtain ⟨gens, hframed⟩ := h pairs smooth 0 [.ok (some (.trade Wire.goldenTrade)), .corrupt]
    ⟨rfl, rfl⟩ (by decide) (by decide +kernel)
  have hopen : (generalPath pairs smooth 0
      [.ok (some (.trade Wire.goldenTrade)), .corrupt]).1.encoder.empty = false := by
    decide +kernel
  have hempty := hframed.encoder
  rw [hopen] at hempty
  cases hempty

end Sender
end PulseFanout
