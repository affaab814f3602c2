import PulseFanout.Sender.Batch

/-!
# Emitting datagrams (`sender.cpp`, `queue_datagram` to `emit_datagram`)

A datagram on its way out is put into the batch, and the batch is flushed when it is full. With
impairment switched on for a test, a datagram may instead be dropped, or held back and released with
a later one; the random draws, the readings of the clock and what a flush runs into are part of
`Env` and are used up one after the other.

`Channel` is the state these functions share. What it has `written` is what has been handed over in
batches and what is waiting in the current one, with the header of the stream in front of each
datagram. Without impairment an emitted datagram is written at once (`emitDatagram_of_ok`), and a
flush changes nothing about what is written (`flushBatch_of_ok`).
-/

namespace PulseFanout
namespace Sender

open Framework Multiplex

/-- What the outside answers in the course of a run, each in the order of asking. -/
structure Env where
  /-- `steady_now_ns` -/
  clock : ℕ → Nanos
  /-- `dist(rng)` -/
  draw : ℕ → ℚ
  /-- What the flushes of a batch run into. -/
  flush : ℕ → Outcome

/-- `PendingDatagram` -/
structure PendingDatagram where
  bytes : Datagram
  releaseNs : Nanos

/-- What the functions below share. -/
structure Channel where
  /-- The datagrams of `Batch`. -/
  batch : List Datagram := []
  firstNs : Nanos := 0
  pending : List PendingDatagram := []
  testDropped : ℕ := 0
  testReordered : ℕ := 0
  /-- How many answers of each kind have been used. -/
  ticks : ℕ := 0
  draws : ℕ := 0
  flushes : ℕ := 0
  /-- The batches that were enqueued or flushed whole. -/
  handed : List (List Datagram) := []
  /-- What went out on the socket of a single destination. -/
  sent : List Datagram := []

/-- One more reading of the clock has been used. -/
def Channel.tick (C : Channel) : Channel := { C with ticks := C.ticks + 1 }

variable (cfg : Config) (env : Env)

/-- `queue_datagram`; only the first datagram of a batch reads the clock. -/
def queueDatagram (data : Datagram) (C : Channel) : Channel :=
  if C.batch = [] then { C.tick with batch := [data], firstNs := env.clock C.ticks }
  else { C with batch := C.batch ++ [data] }

/-- `flush_batch`: more than one destination means a `Fanout`. -/
def flushBatch (C : Channel) : Channel × Bool :=
  if C.batch = [] then (C, true)
  else
    let frames := C.batch.map (wrap cfg.key)
    if cfg.destinations > 1 then
      ({ C with batch := [], firstNs := 0, handed := C.handed ++ [frames] }, true)
    else
      let result := flushBatchDirect cfg frames [env.flush C.flushes]
      let C := { C with flushes := C.flushes + 1, sent := C.sent ++ result.1.flatten }
      if result.2 then
        ({ C with batch := [], firstNs := 0, handed := C.handed ++ [frames] }, true)
      else ({ C with batch := frames }, false)

/-- `queue_or_flush` -/
def queueOrFlush (data : Datagram) (C : Channel) : Channel × Bool :=
  let C := queueDatagram env data C
  if C.batch.length ≥ cfg.batchSize then flushBatch cfg env C else (C, true)

instance : Inhabited PendingDatagram := ⟨⟨[], 0⟩⟩

/-- The loop of `flush_pending`, with `left` entries from `i` on still to be looked at. An entry
that stays is moved down to `write`; the place it is moved from keeps its release time and no
bytes. -/
def releasePending (now : Nanos) (all : Bool) : (left i write : ℕ) → Channel → Channel × Bool
  | 0, _, write, C => ({ C with pending := C.pending.take write }, true)
  | left + 1, i, write, C =>
    let p := C.pending.getD i default
    if all || p.releaseNs ≤ now then
      match queueOrFlush cfg env p.bytes C with
      | (C, false) => (C, false)
      | (C, true) => releasePending now all left (i + 1) write C
    else
      let moved := (C.pending.set write p).set i ⟨[], p.releaseNs⟩
      releasePending now all left (i + 1) (write + 1)
        (if write ≠ i then { C with pending := moved } else C)

/-- `flush_pending` -/
def flushPending (now : Nanos) (all : Bool) (C : Channel) : Channel × Bool :=
  releasePending cfg env now all C.pending.length 0 0 C

/-- `pct > 0.0 && dist(rng) < pct` -/
def roll (pct : ℚ) (C : Channel) : Bool × Channel :=
  if 0 < pct then (decide (env.draw C.draws < pct), { C with draws := C.draws + 1 }) else (false, C)

/-- `emit_datagram` -/
def emitDatagram (data : Datagram) (C : Channel) : Channel × Bool :=
  let now := env.clock C.ticks
  match flushPending cfg env now false C.tick with
  | (C, false) => (C, false)
  | (C, true) =>
    match roll env cfg.testDropPct C with
    | (true, C) => ({ C with testDropped := C.testDropped + 1 }, true)
    | (false, C) =>
      match if 0 < cfg.testReorderDelayUs then roll env cfg.testReorderPct C else (false, C) with
      | (true, C) =>
        if C.pending.length ≥ 65536 then (C, false)
        else
          ({ C with
              pending := C.pending ++ [⟨data, now + cfg.testReorderDelayUs * 1000⟩]
              testReordered := C.testReordered + 1 }, true)
      | (false, C) =>
        match queueOrFlush cfg env data C with
        | (C, false) => (C, false)
        | (C, true) => flushPending cfg env (env.clock C.ticks) false C.tick

/-- A loop that emits one datagram after the other and ends at the first that fails. -/
def emitAll : List Datagram → Channel → Channel × Bool
  | [], C => (C, true)
  | data :: datagrams, C =>
    match emitDatagram cfg env data C with
    | (C, false) => (C, false)
    | (C, true) => emitAll datagrams C

/-! ### What is written -/

/-- Everything queued so far, in order and as it goes out. -/
def Channel.written (C : Channel) : List Datagram :=
  C.handed.flatten ++ C.batch.map (wrap cfg.key)

/-- A single destination has been sent all that was handed over. -/
def Channel.Current (C : Channel) : Prop :=
  cfg.destinations ≤ 1 → C.sent = C.handed.flatMap (transmission cfg)

variable {cfg env}

/-- `C'` has `datagrams` written after what `C` has. -/
structure Wrote (cfg : Config) (datagrams : List Datagram) (C C' : Channel) : Prop where
  written : C'.written cfg = C.written cfg ++ datagrams.map (wrap cfg.key)
  pending : C'.pending = C.pending
  current : C.Current cfg → C'.Current cfg

namespace Wrote

variable {C C' C'' : Channel} {ds es : List Datagram}

theorem refl (C : Channel) : Wrote cfg [] C C := ⟨(List.append_nil _).symm, rfl, id⟩

theorem trans (h : Wrote cfg ds C C') (h' : Wrote cfg es C' C'') :
    Wrote cfg (ds ++ es) C C'' where
  written := by rw [h'.written, h.written, List.map_append, List.append_assoc]
  pending := h'.pending.trans h.pending
  current := fun hC => h'.current (h.current hC)

/-- Reading the clock writes nothing. -/
theorem tick (C : Channel) : Wrote cfg [] C C.tick := ⟨(List.append_nil _).symm, rfl, id⟩

end Wrote

variable {C C' : Channel}

theorem queueDatagram_wrote (env : Env) (data : Datagram) (C : Channel) :
    Wrote cfg [data] C (queueDatagram env data C) := by
  unfold queueDatagram
  split
  · next hnil =>
    refine ⟨?_, rfl, id⟩
    simp only [Channel.written, Channel.tick, hnil, List.map_nil, List.append_nil]
  · refine ⟨?_, rfl, id⟩
    simp only [Channel.written, List.map_append, List.append_assoc]

/-- **A flush that succeeds** hands over what was in the batch. -/
theorem flushBatch_of_ok (h : flushBatch cfg env C = (C', true)) :
    Wrote cfg [] C C' ∧ C'.batch = [] := by
  unfold flushBatch at h
  split at h
  · next hnil =>
    cases h
    exact ⟨.refl C, hnil⟩
  · dsimp only at h
    split at h
    · next hmany =>
      cases h
      refine ⟨⟨?_, rfl, fun _ hone => absurd hone (Nat.not_le_of_lt hmany)⟩, rfl⟩
      simp [Channel.written]
    · split at h
      · next hsent =>
        cases h
        refine ⟨⟨?_, rfl, fun hC hone => ?_⟩, rfl⟩
        · simp [Channel.written]
        · dsimp only
          rw [flushBatchDirect_of_ok hsent, hC hone]
          simp
      · cases h

theorem queueOrFlush_of_ok {data : Datagram} (h : queueOrFlush cfg env data C = (C', true)) :
    Wrote cfg [data] C C' := by
  have hqueued : Wrote cfg [data] C (queueDatagram env data C) := queueDatagram_wrote env data C
  unfold queueOrFlush at h
  dsimp only at h
  split at h
  · exact hqueued.trans (flushBatch_of_ok h).1
  · cases h
    exact hqueued

/-! ### Without impairment -/

/-- `test_drop_pct` and `test_reorder_pct` are zero. -/
structure Config.Unimpaired (cfg : Config) : Prop where
  drop : cfg.testDropPct = 0
  reorder : cfg.testReorderPct = 0

/-- With nothing pending there is nothing to release. -/
theorem flushPending_of_nil (hC : C.pending = []) (now : Nanos) (all : Bool) :
    flushPending cfg env now all C = (C, true) := by
  simp only [flushPending, hC, List.length_nil, releasePending, List.take_nil]
  rw [← hC]

theorem roll_zero : roll env 0 C = (false, C) := if_neg (lt_irrefl 0)

/-- **An emitted datagram is written.** -/
theorem emitDatagram_of_ok (hcfg : cfg.Unimpaired) (hC : C.pending = []) {data : Datagram}
    (h : emitDatagram cfg env data C = (C', true)) : Wrote cfg [data] C C' := by
  unfold emitDatagram at h
  dsimp only at h
  rw [flushPending_of_nil (C := C.tick) hC, hcfg.drop, hcfg.reorder] at h
  simp only [roll_zero, ite_self] at h
  split at h
  · cases h
  next C₁ hqueue =>
  have hwrote : Wrote cfg [data] C C₁ := (Wrote.tick C).trans (queueOrFlush_of_ok hqueue)
  rw [flushPending_of_nil (C := C₁.tick) (hwrote.pending.trans hC)] at h
  cases h
  exact hwrote.trans (.tick C₁)

theorem emitAll_of_ok (hcfg : cfg.Unimpaired) (hC : C.pending = []) {datagrams : List Datagram}
    (h : emitAll cfg env datagrams C = (C', true)) : Wrote cfg datagrams C C' := by
  induction datagrams generalizing C with
  | nil =>
    cases h
    exact .refl _
  | cons data datagrams ih =>
    unfold emitAll at h
    split at h
    · cases h
    next C₁ hfirst =>
    have hwrote := emitDatagram_of_ok hcfg hC hfirst
    exact hwrote.trans (ih (hwrote.pending.trans hC) h)

end Sender
end PulseFanout
