import PulseFanout.Shm.Integrity
import PulseFanout.Shm.Registry

/-!
# Backpressure

With backpressure, a reader that has attached before the writer looks at the readers for the
first time, and that reads the indices in order, is never lapped: it gets every published frame,
in order and without a gap (`backpressure_delivers`).

The writer's look at the readers and its write to the slot are separate steps, and other readers
come and go in between. What carries the argument is that the calls are at most a ring ahead of
the reader's cursor (`Fed.ahead`). `Cleared` is the same for the call the writer is about to
make: once the scan has passed the reader's entry without being blocked there, the call may enter
its slot, and it still may later, because the cursor only grows.
-/

namespace PulseFanout
namespace Shm

open Framework

/-! ### Reading in order -/

/-- The frames that were returned. -/
def oks (returns : List (ℕ × FrameStatus)) : List (List Byte) :=
  returns.filterMap fun
    | (_, .ok frame) => some frame
    | _ => none

/-- The calls of `read` ask for index `n` and then, after each `kOk`, for the next one. -/
def sequential : ℕ → List (ℕ × FrameStatus) → Bool
  | _, [] => true
  | n, (index, .ok _) :: rest => index == n && sequential (n + 1) rest
  | n, (index, _) :: rest => index == n && sequential n rest

/-- The calls that have returned, and the one under way, are in order. -/
structure InSequence (h : Handle) : Prop where
  past : sequential 0 h.returns = true
  now : ∀ index, h.pc.index? = some index → index = (oks h.returns).length

theorem oks_ok (returns : List (ℕ × FrameStatus)) (index : ℕ) (frame : List Byte) :
    oks (returns ++ [(index, .ok frame)]) = oks returns ++ [frame] :=
  List.filterMap_append

theorem oks_other (returns : List (ℕ × FrameStatus)) (index : ℕ) {status : FrameStatus}
    (h : ∀ frame, status ≠ .ok frame) : oks (returns ++ [(index, status)]) = oks returns := by
  rw [oks, List.filterMap_append]
  cases status with
  | ok frame => exact absurd rfl (h frame)
  | _ => exact List.append_nil _

/-- The last call asks for the index after the frames returned before. -/
theorem sequential_concat {n index : ℕ} {returns : List (ℕ × FrameStatus)} {status : FrameStatus} :
    sequential n (returns ++ [(index, status)]) = true ↔
      sequential n returns = true ∧ index = n + (oks returns).length := by
  induction returns generalizing n with
  | nil =>
    have hone : sequential n [(index, status)] = (index == n && true) := by cases status <;> rfl
    rw [List.nil_append, hone, Bool.and_true, beq_iff_eq]
    exact ⟨fun h => ⟨rfl, h⟩, fun h => h.2⟩
  | cons e rest ih =>
    obtain ⟨i, st⟩ := e
    cases st with
    | ok frame =>
      change (i == n && sequential (n + 1) (rest ++ [(index, status)])) = true ↔
        (i == n && sequential (n + 1) rest) = true ∧ index = n + ((oks rest).length + 1)
      rw [Bool.and_eq_true, Bool.and_eq_true, ih, and_assoc, Nat.add_right_comm, Nat.add_assoc]
    | _ =>
      change (i == n && sequential n (rest ++ [(index, status)])) = true ↔
        (i == n && sequential n rest) = true ∧ index = n + (oks rest).length
      rw [Bool.and_eq_true, Bool.and_eq_true, ih, and_assoc]

/-! ### The invariant -/

/-- What a reader has got so far: no `kLapped`, and the first frames. -/
structure Delivered (calls : List (List Byte)) (returns : List (ℕ × FrameStatus)) : Prop where
  unlapped : ∀ index resume, (index, .lapped resume) ∉ returns
  frames : oks returns = calls.take (oks returns).length

/-- The call under way may enter its slot, as far as a reader at entry `i` is concerned: the scan
has passed the entry, or has it still before it. -/
def Cleared (cfg : Config) (i cursor : ℕ) : WriterPc → Prop
  | .pid c j _ blocked | .cursor c j blocked =>
    i < j → blocked = false → c.idx + 1 ≤ cursor + cfg.slotCount
  | .enter c => c.idx + 1 ≤ cursor + cfg.slotCount
  | _ => True

theorem Cleared.mono {cfg : Config} {i cursor cursor' : ℕ} {pc : WriterPc}
    (h : Cleared cfg i cursor pc) (hle : cursor ≤ cursor') : Cleared cfg i cursor' pc := by
  cases pc with
  | pid | cursor => exact fun hi hblocked => (h hi hblocked).trans (Nat.add_le_add_right hle _)
  | enter => exact Nat.le_trans h (Nat.add_le_add_right hle _)
  | _ => trivial

/-- One more once the frame is copied and the cursor stored. -/
def ReaderPc.taken : ReaderPc → ℕ
  | .stored _ _ => 1
  | _ => 0

/-- Attached, with or without a call of `read`. -/
def ReaderPc.Attached : ReaderPc → Prop
  | .idle | .enter _ | .within _ | .copied _ _ | .stored _ _ => True
  | _ => False

/-- Reader `r` at entry `i` has the writer at most a ring ahead. -/
structure Fed (cfg : Config) (W : State) (r i : ℕ) : Prop where
  reader : (W.handles r).reader = some i
  cursor : (W.readers i).cursor = (oks (W.handles r).returns).length + (W.handles r).pc.taken
  ahead : W.calls.length ≤ (W.readers i).cursor + cfg.slotCount
  cleared : Cleared cfg i (W.readers i).cursor W.writer

/-- What holds of a reader that attached early and reads in order. -/
structure Served (cfg : Config) (W : State) (r : ℕ) : Prop where
  past : (W.handles r).early = true → sequential 0 (W.handles r).returns = true →
    Delivered W.calls (W.handles r).returns
  now : (W.handles r).early = true → InSequence (W.handles r) → (W.handles r).pc.Attached →
    ∃ i, Fed cfg W r i

variable {cfg : Config} {W W' : State} {r : ℕ}

namespace Delivered

variable {calls calls' : List (List Byte)} {returns : List (ℕ × FrameStatus)}

theorem nil : Delivered calls [] := ⟨fun _ _ => List.not_mem_nil, rfl⟩

theorem length_le (h : Delivered calls returns) : (oks returns).length ≤ calls.length := by
  have hlength := congrArg List.length h.frames
  rw [List.length_take] at hlength
  omega

theorem mono (h : Delivered calls returns) (hpre : calls <+: calls') :
    Delivered calls' returns := by
  obtain ⟨more, rfl⟩ := hpre
  refine ⟨h.unlapped, ?_⟩
  rw [List.take_append_of_le_length h.length_le]
  exact h.frames

/-- The next frame. -/
theorem ok (h : Delivered calls returns) {frame : List Byte} (index : ℕ)
    (hframe : calls[(oks returns).length]? = some frame) :
    Delivered calls (returns ++ [(index, .ok frame)]) := by
  refine ⟨fun i resume hmem => ?_, ?_⟩
  · rcases List.mem_append.mp hmem with hmem | hmem
    · exact h.unlapped i resume hmem
    · cases List.mem_singleton.mp hmem
  · rw [oks_ok, List.length_append, List.length_singleton, List.take_add_one, hframe, ← h.frames]
    rfl

/-- Nothing. -/
theorem empty (h : Delivered calls returns) (index : ℕ) :
    Delivered calls (returns ++ [(index, .empty)]) := by
  refine ⟨fun i resume hmem => ?_, ?_⟩
  · rcases List.mem_append.mp hmem with hmem | hmem
    · exact h.unlapped i resume hmem
    · cases List.mem_singleton.mp hmem
  · rw [oks_other returns index (by exact nofun)]
    exact h.frames

end Delivered

/-! ### The writer -/

/-- **The scan.** A call enters its slot only when the reader is less than a ring behind. -/
theorem Cleared.step (hbp : cfg.backpressure = true) {i : ℕ}
    (hentry : i < maxReaders ∧ (W.readers i).pid ≠ 0)
    (h : Cleared cfg i (W.readers i).cursor W.writer) (hstep : WriterStep cfg W W') :
    Cleared cfg i (W.readers i).cursor W'.writer := by
  cases hstep with
  | refused => exact h
  | enter | giveUp | kill => trivial
  | @stage c stage =>
    cases stage with
    | copy k =>
      simp only [State.stepStage]
      split <;> trivial
    | _ => trivial
  | scan | rescan => exact fun hi => absurd hi (Nat.not_lt_zero i)
  | begin _ _ hroom =>
    -- the ring is not yet full
    have hlt : W.writeIndex < cfg.slotCount := by
      by_contra hge
      exact hroom ⟨hbp, not_lt.mp hge⟩
    change W.writeIndex + 1 ≤ _
    omega
  | @vacant c j any blocked hpc hpid =>
    rw [hpc] at h
    refine fun hi => h ?_
    -- the entry passed is a free one, so not the reader's
    have hne : i ≠ j := by
      rintro rfl
      exact hentry.2 hpid
    omega
  | occupied hpc =>
    rw [hpc] at h
    exact h
  | compare hpc =>
    rw [hpc] at h
    intro hi hblocked
    obtain ⟨hbefore, hhere⟩ := Bool.or_eq_false_iff.mp hblocked
    rcases Nat.lt_succ_iff_lt_or_eq.mp hi with hlt | rfl
    · exact h hlt hbefore
    · -- the reader's own entry
      have hpast := of_decide_eq_false hhere
      omega
  | pass hpc hend hclear =>
    rw [hpc] at h
    exact h (by omega) hclear

/-- The writer stays at most a ring ahead. -/
theorem Fed.stepWriter (hbp : cfg.backpressure = true)
    (hbound : W.calls.length < 2 ^ 64 - 1) (hinv : Inv cfg W) {i : ℕ}
    (hentry : i < maxReaders ∧ (W.readers i).pid ≠ 0) (h : Fed cfg W r i)
    (hstep : WriterStep cfg W W') : Fed cfg W' r i := by
  obtain ⟨hreaders, hhandles, -, -⟩ := State.stepWriter_frame hstep
  have hcleared := h.cleared.step hbp hentry hstep
  refine ⟨?_, ?_, ?_, ?_⟩
  · rw [hhandles]; exact h.reader
  · rw [hreaders, hhandles]; exact h.cursor
  · rw [hreaders]
    cases hstep with
    | enter hpc =>
      -- the only step that adds a call, and it was let through
      have hthrough := h.cleared
      have hwriter := hinv.writer
      rw [WriterOk, hpc] at hwriter
      rw [hpc] at hthrough
      obtain ⟨hcalls, hidx, -⟩ := hwriter
      rw [Nat.mod_eq_of_lt (by omega)] at hcalls
      rw [List.length_append, List.length_singleton, ← hcalls, ← hidx]
      exact hthrough
    | @stage c stage =>
      rw [(State.stepStage_frame cfg W c stage).2.2.2]
      exact h.ahead
    | _ => exact h.ahead
  · rw [hreaders]
    exact hcleared

namespace Served

theorem stepWriter (hbp : cfg.backpressure = true) (hbound : W.calls.length < 2 ^ 64 - 1)
    (hinv : Inv cfg W) (hreg : Registered W) (h : Served cfg W r)
    (hstep : WriterStep cfg W W') : Served cfg W' r := by
  obtain ⟨-, hhandles, -, hcalls⟩ := State.stepWriter_frame hstep
  refine ⟨?_, ?_⟩
  · rw [hhandles]
    exact fun hearly hseq => (h.past hearly hseq).mono hcalls
  · rw [hhandles]
    intro hearly hseq hpc
    obtain ⟨i, hfed⟩ := h.now hearly hseq hpc
    exact ⟨i, hfed.stepWriter hbp hbound hinv ((hreg.entry r).owned i hfed.reader) hstep⟩

/-! ### Other readers -/

theorem stepOther (hreg : Registered W) (h : Served cfg W r) {q : ℕ} (hne : q ≠ r)
    (hstep : ReaderStep cfg W q W') : Served cfg W' r := by
  obtain ⟨hwriter, -, hcalls, hothers⟩ := State.stepReader_frame hstep
  have hsame := hothers r (Ne.symm hne)
  refine ⟨?_, ?_⟩
  · rw [hsame, hcalls]
    exact h.past
  · rw [hsame]
    intro hearly hseq hpc
    obtain ⟨i, hfed⟩ := h.now hearly hseq hpc
    have hentry := hreg.entry_kept hstep hne (Or.inl hfed.reader)
    refine ⟨i, ?_, ?_, ?_, ?_⟩
    · rw [hsame]; exact hfed.reader
    · rw [hsame, hentry]; exact hfed.cursor
    · rw [hcalls, hentry]; exact hfed.ahead
    · rw [hwriter, hentry]; exact hfed.cleared

/-! ### The reader itself -/

/-- A reader that did not attach early. -/
theorem late (hearly : (W'.handles r).early = false) : Served cfg W' r := by
  refine ⟨fun hset => ?_, fun hset => ?_⟩
  all_goals
    rw [hearly] at hset
    cases hset

/-- A reader that goes away. -/
theorem gone (h : Served cfg W r) (hstep : ReaderStep cfg W r W') {hd : Handle}
    (hself : W'.handles r = hd) (hreturns : hd.returns = (W.handles r).returns)
    (hearly : hd.early = (W.handles r).early) (hpc : ¬ hd.pc.Attached) : Served cfg W' r := by
  subst hself
  refine ⟨?_, fun _ _ hattached => absurd hattached hpc⟩
  rw [hreturns, hearly, (State.stepReader_frame hstep).2.2.1]
  exact h.past

/-- **A reader has attached**, before the writer looks at the readers for the first time. -/
theorem attached (hreg : Registered W) {i : ℕ} (hpc : (W.handles r).pc = .leave i)
    (hreaders : W'.readers = W.readers) (hwriter : W'.writer = W.writer)
    (hcalls : W'.calls = W.calls)
    (hself : W'.handles r = { W.handles r with pc := .idle, early := W.beforeScan cfg }) :
    Served cfg W' r := by
  obtain ⟨hreader, hreturns⟩ := (hreg.entry r).leave i hpc
  have hzero := (hreg.entry r).zero i (Or.inr hpc)
  refine ⟨fun _ _ => ?_, fun hearly _ _ => ⟨i, ?_, ?_, ?_, ?_⟩⟩
  · rw [hself, hreturns]
    exact Delivered.nil
  · rw [hself]
    exact hreader
  · rw [hself, hreaders, hzero, hreturns]
    rfl
  -- it starts at cursor zero, and the writer has not wrapped yet
  all_goals
    rw [hself] at hearly
    obtain ⟨hlength, hidx⟩ := Bool.and_eq_true_iff.mp hearly
    rw [hreaders, hzero]
  · rw [hcalls, Nat.zero_add]
    exact of_decide_eq_true hlength
  · rw [hwriter]
    cases hwpc : W.writer with
    | idle | dead | within => trivial
    | pid c j any blocked | cursor c j blocked =>
      rw [hwpc] at hidx
      have hlt : c.idx < cfg.slotCount := of_decide_eq_true hidx
      exact fun _ _ => by omega
    | enter c =>
      rw [hwpc] at hidx
      have hlt : c.idx < cfg.slotCount := of_decide_eq_true hidx
      change c.idx + 1 ≤ _
      omega

/-- A step of `read` that neither stores the cursor nor returns. -/
theorem moved (h : Served cfg W r) {hd : Handle} (hreaders : W'.readers = W.readers)
    (hwriter : W'.writer = W.writer) (hcalls : W'.calls = W.calls) (hself : W'.handles r = hd)
    (hreader : hd.reader = (W.handles r).reader) (hreturns : hd.returns = (W.handles r).returns)
    (hearly : hd.early = (W.handles r).early)
    (htaken : hd.pc.taken = (W.handles r).pc.taken) (hattached : (W.handles r).pc.Attached)
    (hindex : ∀ index, (W.handles r).pc.index? = some index → hd.pc.index? = some index) :
    Served cfg W' r := by
  subst hself
  refine ⟨?_, fun hset hseq _ => ?_⟩
  · rw [hreturns, hearly, hcalls]
    exact h.past
  · have hseq' : InSequence (W.handles r) :=
      ⟨hreturns ▸ hseq.past, fun index hpc => hreturns ▸ hseq.now index (hindex index hpc)⟩
    obtain ⟨i, hfed⟩ := h.now (hearly ▸ hset) hseq' hattached
    refine ⟨i, ?_, ?_, ?_, ?_⟩
    · rw [hreader]; exact hfed.reader
    · rw [hreaders, hreturns, htaken]; exact hfed.cursor
    · rw [hreaders, hcalls]; exact hfed.ahead
    · rw [hreaders, hwriter]; exact hfed.cleared

/-- `read` returns. -/
theorem returned (h : Served cfg W r) {index : ℕ} {status : FrameStatus}
    (hreaders : W'.readers = W.readers) (hwriter : W'.writer = W.writer)
    (hcalls : W'.calls = W.calls) (hself : W'.handles r = (W.handles r).return index status)
    (hpc : (W.handles r).pc.index? = some index)
    (hgood : ∀ i, Fed cfg W r i → index = (oks (W.handles r).returns).length →
      Delivered W.calls (W.handles r).returns →
        Delivered W.calls ((W.handles r).returns ++ [(index, status)]) ∧
          (W.readers i).cursor = (oks ((W.handles r).returns ++ [(index, status)])).length) :
    Served cfg W' r := by
  have hattached : (W.handles r).pc.Attached := by
    cases hcase : (W.handles r).pc with
    | enter | within | copied | stored => trivial
    | _ => rw [hcase] at hpc; cases hpc
  -- the call that returns was made in order
  have hbefore : (W.handles r).early = true →
      sequential 0 ((W.handles r).returns ++ [(index, status)]) = true →
      ∃ i, Fed cfg W r i ∧ Delivered W.calls ((W.handles r).returns ++ [(index, status)]) ∧
        (W.readers i).cursor = (oks ((W.handles r).returns ++ [(index, status)])).length := by
    intro hearly hseq
    obtain ⟨hpast, hindex⟩ := sequential_concat.mp hseq
    rw [Nat.zero_add] at hindex
    have hnow : InSequence (W.handles r) := by
      refine ⟨hpast, fun index' hpc' => ?_⟩
      rw [hpc, Option.some.injEq] at hpc'
      rw [← hpc', hindex]
    obtain ⟨i, hfed⟩ := h.now hearly hnow hattached
    exact ⟨i, hfed, hgood i hfed hindex (h.past hearly hpast)⟩
  refine ⟨fun hearly hseq => ?_, fun hearly hseq _ => ?_⟩
  · rw [hself] at hearly hseq ⊢
    obtain ⟨i, -, hdelivered, -⟩ := hbefore hearly hseq
    rw [hcalls]
    exact hdelivered
  · rw [hself] at hearly hseq
    obtain ⟨i, hfed, -, hcursor⟩ := hbefore hearly hseq.past
    refine ⟨i, ?_, ?_, ?_, ?_⟩
    · rw [hself]; exact hfed.reader
    · rw [hself, hreaders]; exact hcursor
    · rw [hreaders, hcalls]; exact hfed.ahead
    · rw [hreaders, hwriter]; exact hfed.cleared

/-- `read` returns nothing. -/
theorem returnedEmpty (h : Served cfg W r) {index : ℕ} (hreaders : W'.readers = W.readers)
    (hwriter : W'.writer = W.writer) (hcalls : W'.calls = W.calls)
    (hself : W'.handles r = (W.handles r).return index .empty)
    (hpc : (W.handles r).pc.index? = some index) (htaken : (W.handles r).pc.taken = 0) :
    Served cfg W' r := by
  refine h.returned hreaders hwriter hcalls hself hpc fun i hfed _ hdelivered =>
    ⟨hdelivered.empty index, ?_⟩
  rw [oks_other _ index (by exact nofun), hfed.cursor, htaken, Nat.add_zero]

end Served

/-- A reader that has the writer at most a ring ahead is not lapped. -/
theorem Fed.seq_le {i : ℕ} (hbound : W.calls.length < 2 ^ 64 - 1) (hinv : Inv cfg W)
    (h : Fed cfg W r i) (htaken : (W.handles r).pc.taken = 0) :
    (W.slots (cfg.place (oks (W.handles r).returns).length)).seq ≤
      (oks (W.handles r).returns).length + 1 := by
  rcases Nat.eq_zero_or_pos
    (W.slots (cfg.place (oks (W.handles r).returns).length)).seq with hzero | hpos
  · omega
  · obtain ⟨k, frame, hk, hplace, hseq, -⟩ := hinv.filled _ (Nat.ne_of_gt hpos)
    have hlt := (List.getElem?_eq_some_iff.mp hk).1
    have hahead := h.ahead
    have hcursor := h.cursor
    rw [Nat.mod_eq_of_lt (by omega)] at hplace hseq
    have hle := cfg.le_of_place_eq hplace (by omega)
    omega

namespace Served

/-- `read` with the mutex. -/
theorem check (hbound : W.calls.length < 2 ^ 64 - 1) (hinv : Inv cfg W) (h : Served cfg W r)
    {index : ℕ} (hpc : (W.handles r).pc = .within index) :
    Served cfg (W.check cfg r index) r := by
  have hindex : (W.handles r).pc.index? = some index := by rw [hpc]; rfl
  have htaken : (W.handles r).pc.taken = 0 := by rw [hpc]; rfl
  unfold State.check
  dsimp only
  split
  · exact h.returnedEmpty rfl rfl rfl (State.handles_setHandle r _) hindex htaken
  · next hlow =>
    split
    · next hhigh =>
      -- `kLapped`: not for a reader that reads in order
      refine h.returned rfl rfl rfl (State.handles_setHandle r _) hindex
        fun i hfed heq hdelivered => ?_
      have hle := hfed.seq_le hbound hinv htaken
      have hlength := hdelivered.length_le
      have hnext : next index = index + 1 := Nat.mod_eq_of_lt (by omega)
      rw [← heq] at hle
      omega
    · next hhigh =>
      split
      · next hbad =>
        -- `kCorrupt`: not for any reader
        refine h.returned rfl rfl rfl (State.handles_setHandle r _) hindex
          fun i hfed heq hdelivered => ?_
        have hlength := hdelivered.length_le
        obtain ⟨-, -, -, hgood, -⟩ := hinv.hit (by omega) hlow hhigh
        exact absurd hbad hgood
      · refine h.moved rfl rfl rfl (State.handles_setHandle r _) rfl rfl rfl htaken.symm ?_ ?_
        · rw [hpc]
          trivial
        · rw [hindex]
          exact fun _ heq => heq

/-- The cursor is stored. -/
theorem stored (hbound : W.calls.length < 2 ^ 64 - 1) (h : Served cfg W r)
    {index i : ℕ} {frame : List Byte} (hpc : (W.handles r).pc = .copied index frame)
    (hreader : (W.handles r).reader = some i) (hwriter : W'.writer = W.writer)
    (hcalls : W'.calls = W.calls)
    (hentry : W'.readers i = { W.readers i with cursor := next index })
    (hself : W'.handles r = { W.handles r with pc := .stored index frame }) :
    Served cfg W' r := by
  have hattached : (W.handles r).pc.Attached := by rw [hpc]; trivial
  have htaken : (W.handles r).pc.taken = 0 := by rw [hpc]; rfl
  refine ⟨?_, fun hset hseq _ => ?_⟩
  · rw [hself, hcalls]
    exact h.past
  · rw [hself] at hset hseq
    have hseq' : InSequence (W.handles r) := by
      refine ⟨hseq.past, fun index' hpc' => hseq.now index' ?_⟩
      rw [hpc] at hpc'
      exact hpc'
    obtain ⟨j, hfed⟩ := h.now hset hseq' hattached
    cases hreader.symm.trans hfed.reader
    have hlength := (h.past hset hseq.past).length_le
    have hindex : index = (oks (W.handles r).returns).length := hseq.now index rfl
    have hnext : next index = index + 1 := Nat.mod_eq_of_lt (by omega)
    have hcursor := hfed.cursor
    have hahead := hfed.ahead
    -- the cursor only grows, so what the writer has cleared stays cleared
    have hgrow : (W.readers i).cursor ≤ next index := by omega
    refine ⟨i, ?_, ?_, ?_, ?_⟩
    · rw [hself]; exact hreader
    · rw [hself, hentry]
      change next index = (oks (W.handles r).returns).length + 1
      omega
    · rw [hcalls, hentry]
      exact hahead.trans (Nat.add_le_add_right hgrow _)
    · rw [hwriter, hentry]
      exact hfed.cleared.mono hgrow

/-- **The reader itself.** -/
theorem stepSelf (hbound : W.calls.length < 2 ^ 64 - 1) (hinv : Inv cfg W) (hreg : Registered W)
    (h : Served cfg W r) (hstep : ReaderStep cfg W r W') : Served cfg W' r := by
  have hmove := hstep
  have hself : ∀ (W : State) hd, ((W.setHandle r hd).handles r) = hd := fun W =>
    State.handles_setHandle r
  -- before it has an entry, a reader has not attached early
  have hlate : (W.handles r).pc.Fresh → (W.handles r).early = false := fun hfresh =>
    ((hreg.entry r).fresh hfresh).2.2
  cases hstep with
  | attach hpc | own hpc | found hpc | taken hpc | full hpc | reset hpc | claim hpc =>
    refine late ((congrArg Handle.early (hself _ _)).trans (hlate ?_))
    rw [hpc]
    trivial
  | leave hpc => exact attached hreg hpc rfl rfl rfl (hself _ _)
  | read hpc =>
    refine h.moved rfl rfl rfl (hself _ _) rfl rfl rfl (by rw [hpc]; rfl) (by rw [hpc]; trivial) ?_
    rw [hpc]
    exact nofun
  | enter hpc hfree =>
    refine h.moved rfl rfl rfl (hself _ _) rfl rfl rfl (by rw [hpc]; rfl) (by rw [hpc]; trivial) ?_
    rw [hpc]
    exact fun _ heq => heq
  | busy hpc =>
    exact h.returnedEmpty rfl rfl rfl (hself _ _) (by rw [hpc]; rfl) (by rw [hpc]; rfl)
  | check hpc => exact h.check hbound hinv hpc
  | @store index i frame hpc hreader =>
    exact h.stored hbound hpc hreader rfl rfl (State.readers_setReader i _) (hself _ _)
  | @skip index frame hpc hreader =>
    -- the creator has no entry, and so has not attached early
    refine ⟨?_, fun hset hseq _ => ?_⟩
    · rw [hself]
      exact h.past
    · rw [hself] at hset hseq
      have hseq' : InSequence (W.handles r) := by
        refine ⟨hseq.past, fun index' hpc' => hseq.now index' ?_⟩
        rw [hpc] at hpc'
        exact hpc'
      obtain ⟨i, hfed⟩ := h.now hset hseq' (by rw [hpc]; trivial)
      cases hreader.symm.trans hfed.reader
  | @finish index frame hpc =>
    refine h.returned rfl rfl rfl (hself _ _) (by rw [hpc]; rfl) fun i hfed heq hdelivered => ?_
    have hlength := hdelivered.length_le
    obtain ⟨k, hframe, hbits⟩ := (hinv.handles r).got index frame (by rw [hpc]; rfl) (by omega)
    have hlt := (List.getElem?_eq_some_iff.mp hframe).1
    have hki : k = (oks (W.handles r).returns).length := by omega
    refine ⟨hdelivered.ok index (hki ▸ hframe), ?_⟩
    rw [hfed.cursor, oks_ok, List.length_append, hpc]
    rfl
  | detach hpc hreader => exact h.gone hmove (hself _ _) rfl rfl id
  | drop hpc hreader => exact h.gone hmove (hself _ _) rfl rfl id
  | kill => exact h.gone hmove (hself _ _) rfl rfl id

end Served

/-! ### Runs -/

/-- **Every run**, as long as `write_index` has not come round. -/
theorem Served.reachable (hbp : cfg.backpressure = true) (h : (ring cfg).Reachable W)
    (hbound : W.calls.length < 2 ^ 64 - 1) (r : ℕ) : Served cfg W r := by
  refine h.induction (P := fun W => W.calls.length < 2 ^ 64 - 1 → Served cfg W r) ?_ ?_ hbound
  · exact fun _ => Served.late rfl
  · intro W a W' hreach hserved hstep hbound'
    have hinv := Inv.reachable hreach
    have hreg := Registered.reachable hreach
    cases a with
    | writer a =>
      have hstep := State.stepWriter_cases hstep
      have hle := (State.stepWriter_frame hstep).2.2.2.length_le
      have hbound := lt_of_le_of_lt hle hbound'
      exact (hserved hbound).stepWriter hbp hbound hinv hreg hstep
    | reader q a =>
      have hstep := State.stepReader_cases hstep
      rw [(State.stepReader_frame hstep).2.2.1] at hbound'
      by_cases hq : q = r
      · subst hq
        exact (hserved hbound').stepSelf hbound' hinv hreg hstep
      · exact (hserved hbound').stepOther hreg hq hstep

/-- **Backpressure delivers.** With backpressure, whatever the interleaving, and whichever readers
come and go: a reader whose `attach` was complete before the writer began to look at the readers
for the call with the number `slot_count`, and which reads the indices in order,

* never gets `kLapped`;
* has got the first frames published, in order and without a gap;
* gets the next one as soon as it is published and the slot's mutex is free. -/
theorem backpressure_delivers (hbp : cfg.backpressure = true) (h : (ring cfg).Reachable W)
    (hbound : W.calls.length < 2 ^ 64 - 1) (hearly : (W.handles r).early = true)
    (hseq : InSequence (W.handles r)) :
    (∀ index resume, (index, .lapped resume) ∉ (W.handles r).returns) ∧
    oks (W.handles r).returns = W.calls.take (oks (W.handles r).returns).length ∧
    ∀ index, (W.handles r).pc = .within index → index < W.writeIndex →
      ∃ frame, W.calls[index]? = some frame ∧
        ((W.check cfg r index).handles r).pc = .copied index frame := by
  have hserved := Served.reachable hbp h hbound r
  have hinv := Inv.reachable h
  have hdelivered := hserved.past hearly hseq.past
  refine ⟨hdelivered.unlapped, hdelivered.frames, fun index hpc hindex => ?_⟩
  obtain ⟨i, hfed⟩ := hserved.now hearly hseq (by rw [hpc]; trivial)
  have heq : index = (oks (W.handles r).returns).length := hseq.now index (by rw [hpc]; rfl)
  have hcursor : (W.readers i).cursor = index := by rw [hfed.cursor, hpc, heq]; rfl
  have hahead := hfed.ahead
  obtain ⟨n, hwrite, hcalls⟩ := hinv.calls_length
  have hnext : next index = index + 1 := Nat.mod_eq_of_lt (by omega)
  -- no later call has entered the slot
  have hexact : (W.slots (cfg.place index)).seq = next index := by
    rw [hnext]
    exact hinv.latest (by omega) index hindex (by omega)
  have hlow : ¬ (W.slots (cfg.place index)).seq < next index := by omega
  have hhigh : ¬ (W.slots (cfg.place index)).seq > next index := by omega
  obtain ⟨k, frame, ⟨hframe, hbits⟩, hgood, hbytes⟩ := hinv.hit (by omega) hlow hhigh
  have hlt := (List.getElem?_eq_some_iff.mp hframe).1
  have hki : k = index := by omega
  refine ⟨frame, hki ▸ hframe, ?_⟩
  unfold State.check
  dsimp only
  rw [if_neg hlow, if_neg hhigh, if_neg hgood, State.handles_setHandle, hbytes]

/-- The writer publishes a frame of one byte after a look at all readers, of which there is
one. -/
def publishChecked (byte : Byte) : List Action :=
  .writer (.publish [byte]) :: List.replicate (maxReaders + 2 + 8) (.writer .next)

/-- In a ring of one slot, the reader takes a frame before the next one is published. -/
def inStepRun : List Action :=
  attachFirst ++ publishUnchecked [7] ++ readOne 0 ++ publishChecked 8 ++ readOne 1

theorem frames_read_in_step :
    ∃ W, (ring (oneSlot true)).run (ring (oneSlot true)).start inStepRun = some W ∧
      (W.handles 0).returns = [(0, .ok [7]), (1, .ok [8])] ∧
      oks (W.handles 0).returns = W.calls.take 2 := by
  have hfacts : ((ring (oneSlot true)).run (ring (oneSlot true)).start inStepRun).map
      (fun W => ((W.handles 0).returns, (W.handles 0).early, (W.handles 0).pc.index?,
        W.calls.length)) = some ([(0, .ok [7]), (1, .ok [8])], true, none, 2) := by decide +kernel
  obtain ⟨W, hrun, heq⟩ := Option.map_eq_some_iff.mp hfacts
  simp only [Prod.mk.injEq] at heq
  obtain ⟨hreturns, hearly, hpc, hlength⟩ := heq
  have hseq : InSequence (W.handles 0) := by
    refine ⟨by rw [hreturns]; decide, fun index hindex => ?_⟩
    rw [hpc] at hindex
    cases hindex
  have hfirst := (backpressure_delivers rfl ⟨_, hrun⟩ (by rw [hlength]; decide) hearly hseq).2.1
  refine ⟨W, hrun, hreturns, hfirst.trans ?_⟩
  rw [hreturns]
  rfl

/-! ### The last index -/

/-- A ring of one slot after `n` calls, each of which the reader has taken. -/
structure InStep (n : ℕ) (W : State) : Prop where
  reachable : (ring (oneSlot true)).Reachable W
  writer : W.writer = .idle
  writeIndex : W.writeIndex = n
  calls : W.calls.length = n
  slot : (W.slots 0).owner = none ∧ (W.slots 0).seq = n
  entry : (W.readers 0).pid ≠ 0 ∧ (W.readers 0).cursor = n
  free : ∀ i < maxReaders, i ≠ 0 → (W.readers i).pid = 0
  handle : (W.handles 0).pc = .idle ∧ (W.handles 0).reader = some 0 ∧ (W.handles 0).early = true
  past : sequential 0 (W.handles 0).returns = true ∧ (oks (W.handles 0).returns).length = n

namespace InStep

theorem start : ∃ W, InStep 0 W := by
  have hfacts : ((ring (oneSlot true)).run (ring (oneSlot true)).start attachFirst).any
      (fun W => W.writer = .idle ∧ W.writeIndex = 0 ∧ W.calls = [] ∧
        ((W.slots 0).owner = none ∧ (W.slots 0).seq = 0) ∧
        ((W.readers 0).pid ≠ 0 ∧ (W.readers 0).cursor = 0) ∧
        (∀ i < maxReaders, i ≠ 0 → (W.readers i).pid = 0) ∧
        ((W.handles 0).pc = .idle ∧ (W.handles 0).reader = some 0 ∧
          (W.handles 0).early = true) ∧ (W.handles 0).returns = []) = true := by decide +kernel
  obtain ⟨W, hrun, heq⟩ := (Option.any_eq_true _ _).mp hfacts
  obtain ⟨hwriter, hindex, hcalls, hslot, hentry, hfree, hhandle, hreturns⟩ :=
    of_decide_eq_true heq
  refine ⟨W, ⟨_, hrun⟩, hwriter, hindex, by rw [hcalls]; rfl, hslot, hentry, hfree, hhandle, ?_⟩
  rw [hreturns]
  exact ⟨rfl, rfl⟩

/-- The writer comes to the slot. -/
theorem enters {n : ℕ} (h : InStep n W) :
    (ring (oneSlot true)).Leads W { W with writer := .enter ⟨n, [7]⟩ } := by
  have hbegin : (ring (oneSlot true)).step W (.writer (.publish [7])) =
      some { W with writer := if 1 ≤ n then .pid ⟨n, [7]⟩ 0 false false else .enter ⟨n, [7]⟩ } := by
    simp only [ring_writer, State.stepWriter, h.writer, h.writeIndex]
    rw [if_pos (show 1 ≤ [(7 : Byte)].length ∧ [(7 : Byte)].length ≤ frameCap by decide)]
    simp only [oneSlot, true_and]
  refine .step hbegin ?_
  split
  · -- the reader has taken the last frame
    refine State.scan_passes _ (fun i hlt hpid => ?_) ⟨0, by decide, h.entry.1⟩
    have hi : i = 0 := by
      by_contra hne
      exact hpid (h.free i hlt hne)
    rw [hi, h.entry.2]
    change n - 1 < n
    omega
  · exact .refl _

/-- One more frame is published. -/
theorem published {n : ℕ} (h : InStep n W) (hn : n + 1 < 2 ^ 64) :
    ∃ W', (ring (oneSlot true)).Leads W W' ∧ W'.handles = W.handles ∧ W'.readers = W.readers ∧
      W'.writer = .idle ∧ W'.writeIndex = n + 1 ∧ W'.calls.length = n + 1 ∧
      (W'.slots 0).owner = none ∧ (W'.slots 0).seq = n + 1 ∧ (W'.slots 0).frameLen = 1 := by
  have hnext : next n = n + 1 := Nat.mod_eq_of_lt hn
  have hfree : State.free { W with writer := .enter ⟨n, [7]⟩ }
      (W.slots ((oneSlot true).place n)).owner = true := by
    rw [oneSlot_place, h.slot.1]
    rfl
  refine ⟨_, h.enters.trans (State.publish_completes rfl hfree), rfl, rfl, rfl, hnext, ?_, ?_⟩
  · dsimp only
    rw [List.length_append, h.calls]
    rfl
  · dsimp only
    rw [oneSlot_place, State.slots_setSlot]
    exact ⟨rfl, hnext, rfl⟩

/-- And it is read. -/
theorem succ {n : ℕ} (h : InStep n W) (hn : n + 1 < 2 ^ 64) : ∃ W', InStep (n + 1) W' := by
  have hnext : next n = n + 1 := Nat.mod_eq_of_lt hn
  obtain ⟨W₁, hleads, hhandles, hreaders, hwriter, hindex, hcalls, howner, hseq, hlen⟩ :=
    h.published hn
  obtain ⟨hpc, hreader, hearly⟩ := h.handle
  obtain ⟨hpast, hlength⟩ := h.past
  rw [← hhandles] at hpc hreader hearly hpast hlength
  -- the frame is there, nobody has the mutex: the read runs through
  have hread := State.read_completes (oneSlot true) n hpc hreader (by omega)
    (by rw [oneSlot_place, howner]) (by rw [oneSlot_place, hseq, hnext])
    (by rw [oneSlot_place, hlen]; decide)
  refine ⟨_, h.reachable.leads (hleads.trans hread), hwriter, hindex, hcalls, ?_, ?_,
    fun i hlt hi => ?_, ?_, ?_⟩
  · have hslot := W₁.slots_setOwner ((oneSlot true).place n) none 0
    rw [if_pos (oneSlot_place true n).symm] at hslot
    exact ⟨congrArg Slot.owner hslot, (congrArg Slot.seq hslot).trans hseq⟩
  · have hentry := State.readers_setReader (W := W₁) 0 { W₁.readers 0 with cursor := next n }
    refine ⟨fun hzero => h.entry.1 ?_, (congrArg ReaderState.cursor hentry).trans hnext⟩
    rw [← hreaders]
    exact (congrArg ReaderState.pid hentry).symm.trans hzero
  · have hentry := State.readers_setReader_of_ne (W := W₁) hi
      { W₁.readers 0 with cursor := next n }
    refine (congrArg ReaderState.pid hentry).trans ?_
    rw [hreaders]
    exact h.free i hlt hi
  · rw [State.handles_setHandle]
    exact ⟨rfl, hreader, hearly⟩
  · rw [State.handles_setHandle, Handle.return]
    refine ⟨sequential_concat.mpr ⟨hpast, by rw [hlength, Nat.zero_add]⟩, ?_⟩
    rw [oks_ok, List.length_append, hlength]
    rfl

theorem exists_state {n : ℕ} (hn : n < 2 ^ 64) : ∃ W, InStep n W := by
  induction n with
  | zero => exact start
  | succ n ih =>
    obtain ⟨W, h⟩ := ih (by omega)
    exact h.succ hn

end InStep

/-- After `2 ^ 64 - 1` calls, a reader that attached early and has read every frame in order asks
for the last index, and is told that it is lapped: the index after that is zero again. -/
theorem last_index_lapped :
    ∃ W resume, (ring (oneSlot true)).Reachable W ∧ W.calls.length = 2 ^ 64 - 1 ∧
      (W.handles 0).early = true ∧ InSequence (W.handles 0) ∧
      (2 ^ 64 - 1, .lapped resume) ∈ (W.handles 0).returns := by
  obtain ⟨W, h⟩ := InStep.exists_state (show 2 ^ 64 - 1 < 2 ^ 64 by decide)
  obtain ⟨hpc, -, hearly⟩ := h.handle
  obtain ⟨hpast, hlength⟩ := h.past
  have hread := State.read_lapped (oneSlot true) (2 ^ 64 - 1) hpc (by decide)
    (by rw [oneSlot_place, h.slot.1])
    (by rw [oneSlot_place, h.slot.2]; decide)
  generalize (if W.writeIndex > (oneSlot true).slotCount then
    W.writeIndex - (oneSlot true).slotCount else 0) = resume at hread
  refine ⟨_, resume, h.reachable.leads hread, h.calls, ?_⟩
  rw [State.handles_setHandle, Handle.return]
  refine ⟨hearly, ⟨sequential_concat.mpr ⟨hpast, by rw [hlength, Nat.zero_add]⟩, ?_⟩, ?_⟩
  · intro index hindex
    cases hindex
  · exact List.mem_append_right _ (List.mem_singleton_self _)

end Shm
end PulseFanout
