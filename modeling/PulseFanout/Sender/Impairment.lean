import PulseFanout.Sender.Emit
import Mathlib.Data.List.Perm.Basic
import PulseFanout.Framework.Lists

/-!
# What impairment does to the datagrams (`flush_pending`, `emit_datagram`)

With `test_drop_pct` and `test_reorder_pct` the sender stands in for a bad network: two random draws
decide whether an emitted datagram is dropped, held back until a later time, or queued at once. What
was held back is released by the calls of `flush_pending` before and after each emission, between
them, and once more at the end.

`fate` is what the draws decide, and the fates of a run are its `emissions`. `Tracks` says where the
emissions are at any time: dropped, pending, or written. `flush_pending` compacts the vector of
pending datagrams in place while it writes those that are due; `releasePending_of_ok` says that this
comes to the same as filtering it. The main result is `impairment_conserves`: in the end every
emission that was not dropped has been written once, and those held back in the order of their
release times, if these do not decrease.
-/

namespace PulseFanout
namespace Sender

open Framework Multiplex

/-! ### What `flush_pending` releases -/

/-- `all || pending[i].release_ns <= now_ns` -/
def PendingDatagram.due (now : Nanos) (all : Bool) (p : PendingDatagram) : Bool :=
  all || p.releaseNs ≤ now

/-- The counters of the impairment, and the draws used, are the same; the clock may have been
read. -/
structure Keeps (C C' : Channel) : Prop where
  testDropped : C'.testDropped = C.testDropped
  testReordered : C'.testReordered = C.testReordered
  draws : C'.draws = C.draws
  ticks : C.ticks ≤ C'.ticks

theorem Keeps.trans {C C' C'' : Channel} (h : Keeps C C') (h' : Keeps C' C'') : Keeps C C'' :=
  ⟨h'.testDropped.trans h.testDropped, h'.testReordered.trans h.testReordered,
    h'.draws.trans h.draws, h.ticks.trans h'.ticks⟩

theorem Keeps.tick (C : Channel) : Keeps C C.tick := ⟨rfl, rfl, rfl, Nat.le_succ _⟩

section Release

variable {cfg : Config} {env : Env} {C C' : Channel}

theorem flushBatch_keeps (cfg : Config) (env : Env) (C : Channel) :
    Keeps C (flushBatch cfg env C).1 := by
  unfold flushBatch
  dsimp only
  split_ifs <;> exact ⟨rfl, rfl, rfl, le_rfl⟩

theorem queueDatagram_keeps (env : Env) (data : Datagram) (C : Channel) :
    Keeps C (queueDatagram env data C) := by
  unfold queueDatagram
  split
  · exact ⟨rfl, rfl, rfl, Nat.le_succ _⟩
  · exact ⟨rfl, rfl, rfl, le_rfl⟩

theorem queueOrFlush_keeps (cfg : Config) (env : Env) (data : Datagram) (C : Channel) :
    Keeps C (queueOrFlush cfg env data C).1 := by
  have hqueued := queueDatagram_keeps env data C
  unfold queueOrFlush
  dsimp only
  split
  · exact hqueued.trans (flushBatch_keeps cfg env _)
  · exact hqueued

/-- `C'` has written what was due of `rest`, and of `rest` keeps what was not, after `kept`. -/
structure Released (cfg : Config) (due : PendingDatagram → Bool) (kept rest : List PendingDatagram)
    (C C' : Channel) : Prop where
  written : C'.written cfg =
    C.written cfg ++ (rest.filter due).map fun p => wrap cfg.key p.bytes
  pending : C'.pending = kept ++ rest.filter fun p => !due p
  current : C.Current cfg → C'.Current cfg
  keeps : Keeps C C'

namespace Released

variable {due : PendingDatagram → Bool} {kept rest : List PendingDatagram} {p : PendingDatagram}
  {C₁ : Channel}

/-- An entry that is due is written first. -/
theorem cons_due (hdue : due p = true) (hwrote : Wrote cfg [p.bytes] C C₁) (hkeeps : Keeps C C₁)
    (h : Released cfg due kept rest C₁ C') : Released cfg due kept (p :: rest) C C' where
  written := by
    rw [h.written, hwrote.written, List.filter_cons_of_pos hdue, List.map_cons, List.append_assoc]
    rfl
  pending := by
    rw [h.pending, List.filter_cons_of_neg]
    simp [hdue]
  current := fun hcur => h.current (hwrote.current hcur)
  keeps := hkeeps.trans h.keeps

/-- An entry that is not due is kept first. -/
theorem cons_kept (hdue : due p = false) (h : Released cfg due (kept ++ [p]) rest C C') :
    Released cfg due kept (p :: rest) C C' where
  written := by
    rw [h.written, List.filter_cons_of_neg]
    simp [hdue]
  pending := by
    rw [h.pending, List.filter_cons_of_pos, List.append_assoc]
    · rfl
    · simp [hdue]
  current := h.current
  keeps := h.keeps

end Released

/-- **The loop of `flush_pending`.** The vector is what is kept so far, a gap of entries that have
been dealt with, and the rest. -/
theorem releasePending_of_ok {now : Nanos} {all : Bool} (kept gap : List PendingDatagram)
    {rest : List PendingDatagram} (hC : C.pending = kept ++ gap ++ rest)
    (h : releasePending cfg env now all rest.length (kept.length + gap.length) kept.length C =
      (C', true)) :
    Released cfg (PendingDatagram.due now all) kept rest C C' := by
  induction rest generalizing kept gap C with
  | nil =>
    rw [List.length_nil, releasePending, hC] at h
    cases h
    refine ⟨(List.append_nil _).symm, ?_, id, ⟨rfl, rfl, rfl, le_rfl⟩⟩
    rw [List.append_nil, List.take_left' rfl, List.filter_nil, List.append_nil]
  | cons p rest ih =>
    have hat : C.pending.getD (kept.length + gap.length) default = p := by
      rw [hC, ← List.length_append, List.getD_append_right _ _ _ _ (Nat.le_refl _), Nat.sub_self]
      rfl
    rw [List.length_cons, releasePending, hat] at h
    dsimp only at h
    split at h
    · -- the entry is due: it is written, and the gap grows
      next hdue =>
      split at h
      · cases h
      next C₁ hqueue =>
      have hwrote := queueOrFlush_of_ok hqueue
      have hkeeps := queueOrFlush_keeps cfg env p.bytes C
      rw [hqueue] at hkeeps
      have hC₁ : C₁.pending = kept ++ (gap ++ [p]) ++ rest := by
        rw [hwrote.pending, hC]
        simp
      have hindex : kept.length + gap.length + 1 = kept.length + (gap ++ [p]).length := by
        rw [List.length_append, List.length_singleton, Nat.add_assoc]
      rw [hindex] at h
      exact .cons_due hdue hwrote hkeeps (ih kept (gap ++ [p]) hC₁ h)
    · -- it is not: what is kept grows, and the gap, if there is one, moves up
      next hdue =>
      apply Released.cons_kept (Bool.not_eq_true _ ▸ hdue)
      have hwrite : kept.length + 1 = (kept ++ [p]).length := by
        rw [List.length_append, List.length_singleton]
      cases gap with
      | nil =>
        rw [if_neg (fun hne => hne (Nat.add_zero _).symm), List.length_nil, Nat.add_zero,
          hwrite] at h
        refine ih (kept ++ [p]) [] ?_ h
        rw [hC]
        simp
      | cons g gap =>
        have hne : kept.length ≠ kept.length + (g :: gap).length := by
          rw [List.length_cons]
          omega
        have hindex : kept.length + (g :: gap).length + 1 =
            (kept ++ [p]).length + (gap ++ [(⟨[], p.releaseNs⟩ : PendingDatagram)]).length := by
          simp only [List.length_append, List.length_cons, List.length_nil]
          omega
        rw [if_pos hne, hC, set_set_gap, hindex, hwrite] at h
        have hrest := ih (C := { C with pending := _ }) _ _ rfl h
        have hkeeps := hrest.keeps
        exact ⟨hrest.written, hrest.pending, hrest.current,
          ⟨hkeeps.testDropped, hkeeps.testReordered, hkeeps.draws, hkeeps.ticks⟩⟩

theorem flushPending_of_ok {now : Nanos} {all : Bool}
    (h : flushPending cfg env now all C = (C', true)) :
    Released cfg (PendingDatagram.due now all) [] C.pending C C' :=
  releasePending_of_ok [] [] rfl h

end Release

/-! ### What becomes of an emission -/

/-- What the draws decide. -/
inductive Fate
  | dropped
  | delayed (releaseNs : Nanos)
  | queued
deriving DecidableEq

structure Emission where
  data : Datagram
  fate : Fate
deriving DecidableEq

namespace Emission

def dropped (e : Emission) : Bool := e.fate = .dropped

def delayed (e : Emission) : Bool :=
  match e.fate with
  | .delayed _ => true
  | _ => false

/-- The release time of an emission that is delayed. -/
def releaseNs (e : Emission) : Nanos :=
  match e.fate with
  | .delayed releaseNs => releaseNs
  | _ => 0

/-- An entry of the vector, as the emission it was. -/
def ofPending (p : PendingDatagram) : Emission := ⟨p.bytes, .delayed p.releaseNs⟩

end Emission

variable (cfg : Config) (env : Env)

/-- The outcome of `roll`, with `draws` draws used before. -/
def rolled (pct : ℚ) (draws : ℕ) : Bool := 0 < pct ∧ env.draw draws < pct

theorem roll_eq (pct : ℚ) (C : Channel) :
    roll env pct C =
      (rolled env pct C.draws, { C with draws := if 0 < pct then C.draws + 1 else C.draws }) := by
  unfold roll rolled
  split
  · next hpct => simp [hpct]
  · next hpct => simp [hpct]

/-- The conditions of `emit_datagram`, for a datagram emitted in `C`: a draw for dropping, and if
that does not drop it the next one for reordering. -/
def fate (C : Channel) : Fate :=
  let draws := if 0 < cfg.testDropPct then C.draws + 1 else C.draws
  if rolled env cfg.testDropPct C.draws then .dropped
  else if 0 < cfg.testReorderDelayUs ∧ rolled env cfg.testReorderPct draws then
    .delayed (env.clock C.ticks + cfg.testReorderDelayUs * 1000)
  else .queued

theorem exists_reorder_eq (C : Channel) :
    ∃ d, (if 0 < cfg.testReorderDelayUs then roll env cfg.testReorderPct C else (false, C)) =
      (decide (0 < cfg.testReorderDelayUs ∧ rolled env cfg.testReorderPct C.draws),
        { C with draws := d }) := by
  split
  · next hdelay =>
    refine ⟨_, (roll_eq env cfg.testReorderPct C).trans (Prod.ext ?_ rfl)⟩
    exact (Bool.decide_coe _).symm.trans (decide_eq_decide.mpr (and_iff_right hdelay).symm)
  · next hdelay =>
    exact ⟨C.draws, Prod.ext (decide_eq_false fun h => hdelay h.1).symm rfl⟩

/-- What an emission that succeeds does: what is due is released, and then the datagram is dropped,
or held back, or queued, after which what is due is released again. -/
inductive Emitted (data : Datagram) (C C₁ : Channel) (draws : ℕ) : Channel → Prop
  | dropped (hfate : fate cfg env C = .dropped) :
    Emitted data C C₁ draws { C₁ with draws, testDropped := C₁.testDropped + 1 }
  | delayed {releaseNs : Nanos} (hfate : fate cfg env C = .delayed releaseNs) :
    Emitted data C C₁ draws
      { C₁ with
        draws
        pending := C₁.pending ++ [⟨data, releaseNs⟩]
        testReordered := C₁.testReordered + 1 }
  | queued {C₂ C' : Channel} {now : Nanos} (hfate : fate cfg env C = .queued)
    (hwrote : Wrote cfg [data] { C₁ with draws } C₂) (hkeeps : Keeps { C₁ with draws } C₂)
    (hreleased : Released cfg (PendingDatagram.due now false) [] C₂.pending C₂.tick C') :
    Emitted data C C₁ draws C'

variable {cfg env} in
theorem emitted_of_ok {data : Datagram} {C C' : Channel}
    (hemit : emitDatagram cfg env data C = (C', true)) :
    ∃ C₁ draws,
      Released cfg (PendingDatagram.due (env.clock C.ticks) false) [] C.pending C.tick C₁ ∧
      Emitted cfg env data C C₁ draws C' := by
  unfold emitDatagram at hemit
  dsimp only at hemit
  split at hemit
  · cases hemit
  next C₁ hflush =>
  have hreleased := flushPending_of_ok hflush
  -- releasing uses no draw, so the conditions are those of `fate`
  have hdraws : C₁.draws = C.draws := hreleased.keeps.draws
  rw [roll_eq, hdraws] at hemit
  cases hdrop : rolled env cfg.testDropPct C.draws with
  | true =>
    rw [hdrop] at hemit
    cases hemit
    -- dropped, with no second draw
    exact ⟨C₁, _, hreleased, .dropped (if_pos hdrop)⟩
  | false =>
    rw [hdrop] at hemit
    dsimp only at hemit
    generalize hused : (if 0 < cfg.testDropPct then C.draws + 1 else C.draws) = used at hemit
    have hkept : ¬ rolled env cfg.testDropPct C.draws = true := Bool.eq_false_iff.mp hdrop
    obtain ⟨draws, hroll⟩ := exists_reorder_eq cfg env { C₁ with draws := used }
    rw [hroll] at hemit
    by_cases hdelay : 0 < cfg.testReorderDelayUs ∧ rolled env cfg.testReorderPct used = true
    · rw [decide_eq_true hdelay] at hemit
      dsimp only at hemit
      split at hemit
      · cases hemit
      cases hemit
      -- held back: the vector was not at its limit
      refine ⟨C₁, draws, hreleased, .delayed ?_⟩
      rw [fate, hused, if_neg hkept, if_pos hdelay]
    · rw [decide_eq_false hdelay] at hemit
      dsimp only at hemit
      split at hemit
      · cases hemit
      next C₂ hqueue =>
      -- queued, and then what has become due in the meantime is released
      have hkeeps := queueOrFlush_keeps cfg env data { C₁ with draws }
      rw [hqueue] at hkeeps
      refine ⟨C₁, draws, hreleased,
        .queued ?_ (queueOrFlush_of_ok hqueue) hkeeps (flushPending_of_ok hemit)⟩
      rw [fate, hused, if_neg hkept, if_neg hdelay]

variable {cfg env} in
/-- The clock is not set back. -/
theorem emitDatagram_ticks {data : Datagram} {C C' : Channel}
    (hemit : emitDatagram cfg env data C = (C', true)) : C.ticks ≤ C'.ticks := by
  obtain ⟨C₁, draws, hreleased, hemitted⟩ := emitted_of_ok hemit
  have hfirst : C.ticks ≤ C₁.ticks := ((Keeps.tick C).trans hreleased.keeps).ticks
  cases hemitted with
  | dropped => exact hfirst
  | delayed => exact hfirst
  | queued _ _ hkeeps hreleased' =>
    exact hfirst.trans ((hkeeps.trans (.tick _)).trans hreleased'.keeps).ticks

variable {cfg env} in
theorem emitAll_ticks {datagrams : List Datagram} {C C' : Channel}
    (hemit : emitAll cfg env datagrams C = (C', true)) : C.ticks ≤ C'.ticks := by
  induction datagrams generalizing C with
  | nil =>
    cases hemit
    exact le_rfl
  | cons data datagrams ih =>
    unfold emitAll at hemit
    split at hemit
    · cases hemit
    · next C₁ hfirst => exact (emitDatagram_ticks hfirst).trans (ih hemit)

/-- The calls `run` makes: besides emitting, it releases what is due and flushes the batch. -/
inductive Call
  | emit (data : Datagram)
  | release
  | flush

def Call.run : Call → Channel → Channel × Bool
  | .emit data, C => emitDatagram cfg env data C
  | .release, C => flushPending cfg env (env.clock C.ticks) false C.tick
  | .flush, C => flushBatch cfg env C

/-- One call after the other, up to the first that returns false. -/
def runCalls : List Call → Channel → Channel × Bool
  | [], C => (C, true)
  | call :: calls, C =>
    match call.run cfg env C with
    | (C, false) => (C, false)
    | (C, true) => runCalls calls C

/-- The emission a call made in `C` is, if it is one. -/
def Call.emission (C : Channel) : Call → List Emission
  | .emit data => [⟨data, fate cfg env C⟩]
  | .release => []
  | .flush => []

/-- The emissions of `runCalls`. -/
def emissions : List Call → Channel → List Emission
  | [], _ => []
  | call :: calls, C => call.emission cfg env C ++ emissions calls (call.run cfg env C).1

/-- A run, with `flush_pending` and `flush_batch` at its end. -/
def impairedRun (calls : List Call) : Channel × Bool :=
  match runCalls cfg env calls {} with
  | (C, false) => (C, false)
  | (C, true) =>
    match flushPending cfg env (env.clock C.ticks) true C.tick with
    | (C, false) => (C, false)
    | (C, true) => flushBatch cfg env C

/-! ### Where the emissions are -/

/-- The release times of the delayed emissions do not decrease. -/
def ReleasesSorted (log : List Emission) : Prop :=
  (log.filter Emission.delayed).Pairwise fun e f => e.releaseNs ≤ f.releaseNs

/-- After the emissions `log`, of which `order` are written, in that order. -/
structure Tracks (log order : List Emission) (C : Channel) : Prop where
  written : C.written cfg = order.map fun e => wrap cfg.key e.data
  perm : (order ++ C.pending.map Emission.ofPending).Perm (log.filter fun e => !e.dropped)
  /-- The pending ones come after the delayed ones that are written. -/
  fifo : ReleasesSorted log → order.filter Emission.delayed ++ C.pending.map Emission.ofPending =
    log.filter Emission.delayed
  testDropped : C.testDropped = (log.filter Emission.dropped).length
  testReordered : C.testReordered = (log.filter Emission.delayed).length
  current : C.Current cfg

variable {cfg env}

namespace Tracks

variable {log order : List Emission} {C C' : Channel}

theorem initial : Tracks cfg [] [] {} := ⟨rfl, .nil, fun _ => rfl, rfl, rfl, fun _ => rfl⟩

/-- What is written at once, without an emission of its own: a flush, or a reading of the clock. -/
theorem wrote (h : Tracks cfg log order C) (hwrote : Wrote cfg [] C C') (hkeeps : Keeps C C') :
    Tracks cfg log order C' where
  written := by rw [hwrote.written, List.map_nil, List.append_nil, h.written]
  perm := by
    rw [hwrote.pending]
    exact h.perm
  fifo := by
    rw [hwrote.pending]
    exact h.fifo
  testDropped := hkeeps.testDropped.trans h.testDropped
  testReordered := hkeeps.testReordered.trans h.testReordered
  current := hwrote.current h.current

theorem tick (h : Tracks cfg log order C) : Tracks cfg log order C.tick :=
  h.wrote (.tick C) (.tick C)

theorem ofPending_delayed (pending : List PendingDatagram) :
    (pending.map Emission.ofPending).filter Emission.delayed = pending.map Emission.ofPending := by
  rw [List.filter_eq_self]
  intro e he
  obtain ⟨p, -, rfl⟩ := List.mem_map.mp he
  rfl

/-- **What is due is released**, in the order it has in the vector. -/
theorem released (h : Tracks cfg log order C) {now : Nanos} {all : Bool}
    (hreleased : Released cfg (PendingDatagram.due now all) [] C.pending C C') :
    Tracks cfg log
      (order ++ (C.pending.filter (PendingDatagram.due now all)).map Emission.ofPending) C' where
  written := by
    rw [hreleased.written, h.written, List.map_append, List.map_map]
    rfl
  perm := by
    rw [hreleased.pending, List.nil_append, List.append_assoc, ← List.map_append]
    exact (((List.filter_append_perm _ _).map _).append_left order).trans h.perm
  fifo := by
    intro hlog
    have hfifo := h.fifo hlog
    -- the pending emissions are the last of the delayed ones, and so sorted as well
    have hsorted : C.pending.Pairwise fun p q => p.releaseNs ≤ q.releaseNs := by
      rw [ReleasesSorted, ← hfifo, List.pairwise_append, List.pairwise_map] at hlog
      exact hlog.2.1
    have hdue : ∀ p q : PendingDatagram, p.releaseNs ≤ q.releaseNs →
        PendingDatagram.due now all q = true → PendingDatagram.due now all p = true := by
      intro p q hle hq
      cases all with
      | true => rfl
      | false => exact decide_eq_true (BitVec.le_trans hle (of_decide_eq_true hq))
    rw [hreleased.pending, List.nil_append, List.filter_append, ofPending_delayed,
      List.append_assoc, ← List.map_append, filter_due_append hsorted hdue, hfifo]
  testDropped := hreleased.keeps.testDropped.trans h.testDropped
  testReordered := hreleased.keeps.testReordered.trans h.testReordered
  current := hreleased.current h.current

theorem draws (h : Tracks cfg log order C) (d : ℕ) : Tracks cfg log order { C with draws := d } :=
  ⟨h.written, h.perm, h.fifo, h.testDropped, h.testReordered, h.current⟩

theorem filter_delayed_concat {e : Emission} (he : e.delayed = false) (l : List Emission) :
    (l ++ [e]).filter Emission.delayed = l.filter Emission.delayed := by
  rw [List.filter_append, List.filter_singleton, he, cond_false, List.append_nil]

theorem drop (h : Tracks cfg log order C) (data : Datagram) :
    Tracks cfg (log ++ [⟨data, .dropped⟩]) order
      { C with testDropped := C.testDropped + 1 } where
  written := h.written
  perm := by
    rw [List.filter_append]
    exact (List.append_nil (log.filter _)).symm ▸ h.perm
  fifo := by
    intro hlog
    rw [ReleasesSorted, filter_delayed_concat (e := ⟨data, _⟩) rfl] at hlog
    rw [filter_delayed_concat (e := ⟨data, _⟩) rfl]
    exact h.fifo hlog
  testDropped := by
    rw [List.filter_append, List.length_append, ← h.testDropped]
    rfl
  testReordered := by
    rw [List.filter_append, List.length_append]
    exact h.testReordered
  current := h.current

theorem delay (h : Tracks cfg log order C) (data : Datagram) (releaseNs : Nanos) :
    Tracks cfg (log ++ [⟨data, .delayed releaseNs⟩]) order
      { C with
        pending := C.pending ++ [⟨data, releaseNs⟩]
        testReordered := C.testReordered + 1 } where
  written := h.written
  perm := by
    rw [List.filter_append, List.map_append, ← List.append_assoc]
    exact h.perm.append_right _
  fifo := by
    intro hlog
    rw [ReleasesSorted, List.filter_append] at hlog
    rw [List.filter_append, ← h.fifo (List.pairwise_append.mp hlog).1, List.map_append,
      List.append_assoc]
    rfl
  testDropped := by
    rw [List.filter_append, List.length_append]
    exact h.testDropped
  testReordered := by
    rw [List.filter_append, List.length_append, ← h.testReordered]
    rfl
  current := h.current

theorem queue (h : Tracks cfg log order C) {data : Datagram} (hwrote : Wrote cfg [data] C C')
    (hkeeps : Keeps C C') :
    Tracks cfg (log ++ [⟨data, .queued⟩]) (order ++ [⟨data, .queued⟩]) C' where
  written := by
    rw [hwrote.written, h.written, List.map_append]
    rfl
  perm := by
    rw [hwrote.pending, List.filter_append, List.append_assoc]
    refine (List.perm_append_comm.append_left order).trans ?_
    rw [← List.append_assoc]
    exact h.perm.append_right _
  fifo := by
    intro hlog
    rw [ReleasesSorted, filter_delayed_concat (e := ⟨data, _⟩) rfl] at hlog
    rw [filter_delayed_concat (e := ⟨data, _⟩) rfl, filter_delayed_concat (e := ⟨data, _⟩) rfl,
      hwrote.pending]
    exact h.fifo hlog
  testDropped := by
    rw [List.filter_append, List.length_append]
    exact hkeeps.testDropped.trans h.testDropped
  testReordered := by
    rw [List.filter_append, List.length_append]
    exact hkeeps.testReordered.trans h.testReordered
  current := hwrote.current h.current

/-- **One emission.** -/
theorem emit (h : Tracks cfg log order C) {data : Datagram}
    (hemit : emitDatagram cfg env data C = (C', true)) :
    ∃ order', Tracks cfg (log ++ [⟨data, fate cfg env C⟩]) order' C' := by
  obtain ⟨C₁, draws, hreleased, hemitted⟩ := emitted_of_ok hemit
  have h₁ := (h.tick.released hreleased).draws draws
  cases hemitted with
  | dropped hfate =>
    rw [hfate]
    exact ⟨_, h₁.drop data⟩
  | delayed hfate =>
    rw [hfate]
    exact ⟨_, h₁.delay data _⟩
  | queued hfate hwrote hkeeps hreleased' =>
    rw [hfate]
    exact ⟨_, (h₁.queue hwrote hkeeps).tick.released hreleased'⟩

theorem call (h : Tracks cfg log order C) {call : Call}
    (hrun : call.run cfg env C = (C', true)) :
    ∃ order', Tracks cfg (log ++ call.emission cfg env C) order' C' := by
  cases call with
  | emit data => exact h.emit hrun
  | release =>
    rw [Call.emission, List.append_nil]
    exact ⟨_, h.tick.released (flushPending_of_ok hrun)⟩
  | flush =>
    have hkeeps := flushBatch_keeps cfg env C
    rw [Call.run] at hrun
    rw [hrun] at hkeeps
    rw [Call.emission, List.append_nil]
    exact ⟨_, h.wrote (flushBatch_of_ok hrun).1 hkeeps⟩

/-- **A run of calls.** -/
theorem runCalls (h : Tracks cfg log order C) {calls : List Call}
    (hrun : Sender.runCalls cfg env calls C = (C', true)) :
    ∃ order', Tracks cfg (log ++ emissions cfg env calls C) order' C' := by
  induction calls generalizing log order C with
  | nil =>
    cases hrun
    rw [emissions, List.append_nil]
    exact ⟨_, h⟩
  | cons call calls ih =>
    unfold Sender.runCalls at hrun
    split at hrun
    · cases hrun
    next C₁ hcall =>
    obtain ⟨order₁, h₁⟩ := h.call hcall
    obtain ⟨order', h'⟩ := ih h₁ hrun
    refine ⟨order', ?_⟩
    rw [emissions, ← List.append_assoc, hcall]
    exact h'

end Tracks

/-- With `all` nothing stays pending. -/
theorem Released.pending_nil {C C' : Channel} {now : Nanos}
    (h : Released cfg (PendingDatagram.due now true) [] C.pending C C') : C'.pending = [] := by
  rw [h.pending, List.nil_append, List.filter_eq_nil_iff]
  intro p _ hp
  cases hp

/-- At the end of a run nothing is pending, and nothing is in the batch. -/
theorem impairedRun_of_ok {calls : List Call} {C : Channel}
    (h : impairedRun cfg env calls = (C, true)) :
    ∃ order, Tracks cfg (emissions cfg env calls {}) order C ∧ C.pending = [] ∧ C.batch = [] := by
  unfold impairedRun at h
  split at h
  · cases h
  next C₁ hcalls =>
  obtain ⟨order₁, h₁⟩ := Tracks.initial.runCalls hcalls
  split at h
  · cases h
  next C₂ hrelease =>
  have hreleased := flushPending_of_ok hrelease
  obtain ⟨hflush, hbatch⟩ := flushBatch_of_ok h
  have hkeeps := flushBatch_keeps cfg env C₂
  rw [h] at hkeeps
  exact ⟨_, (h₁.tick.released hreleased).wrote hflush hkeeps,
    hflush.pending.trans hreleased.pending_nil, hbatch⟩

/-- **Impairment loses nothing it does not count, and repeats nothing.** In a run in which no call
returns false, `log` being what was emitted and what the draws decided: what was handed over in the
end is, in some `order`, every emission that was not dropped; the counters say how many were dropped
and how many were delayed; and if the release times do not decrease, the delayed ones leave in that
order. -/
theorem impairment_conserves (cfg : Config) (env : Env) (calls : List Call)
    (hok : (impairedRun cfg env calls).2 = true) :
    let log := emissions cfg env calls {}
    let C := (impairedRun cfg env calls).1
    ∃ order : List Emission,
      C.handed.flatten = order.map (fun e => wrap cfg.key e.data) ∧
      (order ++ log.filter Emission.dropped).Perm log ∧
      ((log.map Emission.data).Nodup → C.handed.flatten.Nodup) ∧
      C.testDropped = (log.filter Emission.dropped).length ∧
      C.testReordered = (log.filter Emission.delayed).length ∧
      (ReleasesSorted log → order.filter Emission.delayed = log.filter Emission.delayed) ∧
      (cfg.destinations ≤ 1 → C.sent = C.handed.flatMap (transmission cfg)) := by
  intro log C
  obtain ⟨order, h, hpending, hbatch⟩ := impairedRun_of_ok (C := C) (Prod.ext rfl hok)
  -- after the last flush nothing is pending and the batch is empty: all that was written is handed
  have hhanded : C.handed.flatten = order.map fun e => wrap cfg.key e.data := by
    rw [← h.written, Channel.written, hbatch, List.map_nil, List.append_nil]
  have hperm : order.Perm (log.filter fun e => !e.dropped) := by
    have hall := h.perm
    rwa [hpending, List.map_nil, List.append_nil] at hall
  have hlog : (order ++ log.filter Emission.dropped).Perm log :=
    (hperm.append_right _).trans
      (List.perm_append_comm.trans (List.filter_append_perm Emission.dropped log))
  refine ⟨order, hhanded, hlog, ?_, h.testDropped, h.testReordered, ?_, h.current⟩
  · intro hnodup
    -- wrapping is injective, so distinct emissions stay distinct on the wire
    have hdata : (order.map Emission.data).Nodup := by
      have hall := (hlog.map Emission.data).nodup_iff.mpr hnodup
      rw [List.map_append] at hall
      exact (List.nodup_append.mp hall).1
    rw [hhanded, show (fun e : Emission => wrap cfg.key e.data) = wrap cfg.key ∘ Emission.data
      from rfl, ← List.map_map]
    exact hdata.map fun _ _ heq => List.append_cancel_left heq
  · intro hmono
    have hfifo := h.fifo hmono
    rwa [hpending, List.map_nil, List.append_nil] at hfifo

/-- Two destinations, batches of two, and every second datagram impaired one way or the other. -/
def rough : Config :=
  { Config.standard ⟨11, 12⟩ with
    destinations := 2
    batchSize := 2
    testDropPct := 1 / 2
    testReorderPct := 1 / 2
    testReorderDelayUs := 1
    batchSize_range := by decide }

/-- The first draw drops a datagram, and the third delays one. -/
def unlucky : Env where
  clock := fun n => BitVec.ofNat 64 (500 * n)
  draw := fun n => if n = 0 ∨ n = 2 then 0 else 1
  flush := fun _ => .unknown

def fourDatagrams : List Call := [.emit [1], .emit [2], .emit [3], .release, .emit [4]]

theorem rough_run_conserves :
    ∃ order : List Emission,
      (impairedRun rough unlucky fourDatagrams).1.handed.flatten =
        order.map (fun e => wrap rough.key e.data) ∧
      List.Perm (order ++ [(⟨[1], .dropped⟩ : Emission)])
        [⟨[1], .dropped⟩, ⟨[2], .delayed 1500⟩, ⟨[3], .queued⟩, ⟨[4], .queued⟩] ∧
      order.filter Emission.delayed = [⟨[2], .delayed 1500⟩] := by
  have hlog : emissions rough unlucky fourDatagrams {} =
      [⟨[1], .dropped⟩, ⟨[2], .delayed 1500⟩, ⟨[3], .queued⟩, ⟨[4], .queued⟩] := by
    decide +kernel
  obtain ⟨order, hhanded, hperm, -, -, -, hfifo, -⟩ :=
    impairment_conserves rough unlucky fourDatagrams (by decide +kernel)
  rw [hlog] at hperm hfifo
  exact ⟨order, hhanded, hperm, hfifo (List.pairwise_singleton _ _)⟩

end Sender
end PulseFanout
