import PulseFanout.Framework.Missing
import PulseFanout.Shm.Loop

/-!
# What a lapped reader has missed

`kLapped` sends a reader to `write_index - slot_count`. The `seq` that shows the reader to be lapped
and the `write_index` that says where to go on are two loads, and what makes them agree is the mutex
of the slot. The reader holds it, so `seq` is the same at the second load as at the first
(`WriterStep.seq_held`), which is why `check` is one step. And the writer stores both before it
gives the mutex back: a reader that finds in its slot the `seq` of a later call finds `write_index`
past that call (`Inv.complete`).

So everything below the new index has been overwritten by a call that is complete
(`lapped_behind`), and as `write_index` does not go back, no call of `read` returns any of it
(`not_returned`). That rests on a second invariant, `Current`: what a slot names is at most a ring
behind `write_index`, and a reader that has copied a frame still has the slot as it found it.

For the loop of the sender it follows that `skipped_messages` is the number of frames that it has
passed over (`Passed`). All of this is arithmetic with 64 bits, and ends where they do
(`lapping_limits`).
-/

namespace PulseFanout
namespace Shm

open Framework

variable {cfg : Config} {W W' : State} {r : ℕ}

/-! ### What a step of a reader does -/

/-- What `read` can return, and where. -/
inductive Returned (cfg : Config) (W : State) (r index : ℕ) : FrameStatus → Prop
  | ok {frame : List Byte} (hpc : (W.handles r).pc = .stored index frame) :
    Returned cfg W r index (.ok frame)
  | lapped (hpc : (W.handles r).pc = .within index)
    (hseq : (W.slots (cfg.place index)).seq > next index) :
    Returned cfg W r index
      (.lapped (if W.writeIndex > cfg.slotCount then W.writeIndex - cfg.slotCount else 0))
  | busy (hpc : (W.handles r).pc = .enter index) : Returned cfg W r index .empty
  | early (hpc : (W.handles r).pc = .within index)
    (hseq : (W.slots (cfg.place index)).seq < next index) : Returned cfg W r index .empty
  | corrupt (hpc : (W.handles r).pc = .within index)
    (hseq : (W.slots (cfg.place index)).seq = next index)
    (hbad : (W.slots (cfg.place index)).frameLen = 0 ∨
      (W.slots (cfg.place index)).frameLen > frameCap) :
    Returned cfg W r index .corrupt

theorem Returned.index {index : ℕ} {status : FrameStatus} (h : Returned cfg W r index status) :
    (W.handles r).pc.index? = some index := by
  cases h with
  | ok hpc | lapped hpc | busy hpc | early hpc | corrupt hpc => rw [hpc]; rfl

/-- What a step can do to the handle of its reader: a call returns; or nothing is returned, and a
frame the reader has was there before or is taken from the slot. -/
inductive Kept (cfg : Config) (W : State) (r : ℕ) (hd : Handle) : Prop
  | still (hreturns : hd.returns = (W.handles r).returns)
    (hframe : ∀ index frame, hd.pc.frame? = some (index, frame) →
      (W.handles r).pc.frame? = some (index, frame) ∨
        (W.handles r).pc = .within index ∧ (W.slots (cfg.place index)).seq = next index)
  | returned {index : ℕ} {status : FrameStatus} (hself : hd = (W.handles r).return index status)
    (hreturned : Returned cfg W r index status)

/-- The call that has returned. -/
theorem Kept.returned_of {hd : Handle} (h : Kept cfg W r hd) {index : ℕ} {status : FrameStatus}
    (hreturns : hd.returns = (W.handles r).returns ++ [(index, status)]) :
    hd = (W.handles r).return index status ∧ Returned cfg W r index status := by
  cases h with
  | still hstill =>
    rw [hstill] at hreturns
    exact absurd (List.self_eq_append_right.mp hreturns) (List.cons_ne_nil _ _)
  | @returned index' status' hself hreturned =>
    rw [hself] at hreturns
    have hlast := List.append_cancel_left hreturns
    injection hlast with hlast
    injection hlast with hindex hstatus
    subst hindex hstatus
    exact ⟨hself, hreturned⟩

theorem State.check_kept {index : ℕ} (hpc : (W.handles r).pc = .within index) :
    Kept cfg W r ((W.check cfg r index).handles r) := by
  unfold check
  dsimp only
  split
  · next hlow => exact .returned (handles_setHandle r _) (.early hpc hlow)
  · next hlow =>
    split
    · next hhigh => exact .returned (handles_setHandle r _) (.lapped hpc hhigh)
    · next hhigh =>
      have hseq : (W.slots (cfg.place index)).seq = next index := by omega
      split
      · next hbad => exact .returned (handles_setHandle r _) (.corrupt hpc hseq hbad)
      · rw [handles_setHandle]
        refine .still rfl fun i frame hgot => Or.inr ?_
        cases hgot
        exact ⟨hpc, hseq⟩

theorem ReaderStep.kept (h : ReaderStep cfg W r W') : Kept cfg W r (W'.handles r) := by
  have hself : ∀ (W : State) hd, (W.setHandle r hd).handles r = hd := fun W =>
    State.handles_setHandle r
  cases h with
  | check hpc => exact State.check_kept hpc
  | busy hpc => exact .returned (hself _ _) (.busy hpc)
  | finish hpc => exact .returned (hself _ _) (.ok hpc)
  | store hpc | skip hpc =>
    rw [hself]
    refine .still rfl fun index frame hgot => Or.inl ?_
    rw [hpc]
    exact hgot
  | _ =>
    rw [hself]
    exact .still rfl nofun

/-- Readers write nothing to a slot but its mutex. -/
theorem ReaderStep.seq (h : ReaderStep cfg W r W') (s : ℕ) :
    (W'.slots s).seq = (W.slots s).seq := by
  have howner : ∀ t owner, ((W.setOwner t owner).slots s).seq = (W.slots s).seq := fun t owner => by
    rw [State.slots_setOwner]
  cases h with
  | enter | finish => exact howner _ _
  | check =>
    unfold State.check
    dsimp only
    repeat' split
    all_goals first | exact howner _ _ | rfl
  | _ => rfl

/-- Who has died stays dead. -/
theorem ReaderStep.alive (h : ReaderStep cfg W r W') (hlive : (W'.handles r).pc ≠ .dead) :
    (W.handles r).pc ≠ .dead := by
  intro hdead
  cases h with
  | kill => exact hlive (congrArg Handle.pc (State.handles_setHandle r _))
  | attach hpc | own hpc | found hpc | taken hpc | full hpc | reset hpc | claim hpc | leave hpc
  | read hpc | enter hpc | busy hpc | check hpc | store hpc | skip hpc | finish hpc | detach hpc
  | drop hpc =>
    rw [hdead] at hpc
    cases hpc

theorem WriterStep.alive (h : WriterStep cfg W W') (hlive : W'.writer ≠ .dead) :
    W.writer ≠ .dead := by
  intro hdead
  cases h with
  | refused => exact hlive hdead
  | kill => exact hlive rfl
  | giveUp hpc =>
    rw [hdead] at hpc
    rcases hpc with ⟨_, _, _, hpc⟩ | hpc
    · cases hpc
    · cases hpc
  | scan hpc | begin hpc | vacant hpc | occupied hpc | compare hpc | pass hpc | rescan hpc
  | enter hpc | stage hpc =>
    rw [hdead] at hpc
    cases hpc

/-! ### What a slot names is current -/

/-- A reader that has a frame holds the mutex of its slot. -/
theorem ReaderPc.inside_of_frame {pc : ReaderPc} {index : ℕ} {frame : List Byte}
    (h : pc.frame? = some (index, frame)) : pc.inside cfg = some (cfg.place index) := by
  cases pc with
  | copied i f | stored i f =>
    cases h
    rfl
  | _ => cases h

/-- What a stage makes of the `seq` of its slot. -/
def Stage.seq (c : Call) (seq : ℕ) : Stage → ℕ
  | .invalidate => 0
  | .stamp => next c.idx
  | _ => seq

theorem State.stepStage_seq (cfg : Config) (W : State) (c : Call) (st : Stage) (s : ℕ) :
    ((W.stepStage cfg c st).slots s).seq =
      if s = cfg.place c.idx then st.seq c (W.slots s).seq else (W.slots s).seq := by
  have hstore : ∀ f : Slot → Slot, ((W.store cfg c.idx f).slots s).seq =
      if s = cfg.place c.idx then (f (W.slots s)).seq else (W.slots s).seq := by
    intro f
    unfold store
    by_cases hs : s = cfg.place c.idx
    · subst hs
      rw [slots_setSlot, if_pos rfl]
    · rw [slots_setSlot_of_ne hs, if_neg hs]
  cases st with
  | invalidate => exact hstore fun slot => { slot with seq := 0 }
  | clear => exact hstore fun slot => { slot with frameLen := 0 }
  | copy k =>
    simp only [stepStage]
    split
    · next byte _ =>
      exact hstore fun slot => { slot with frame := Function.update slot.frame k byte }
    · exact hstore fun slot => { slot with frameLen := c.frame.length }
  | stamp => exact hstore fun slot => { slot with seq := next c.idx }
  | advance => exact (ite_self _).symm
  | leave =>
    simp only [stepStage, slots_setOwner]
    exact (ite_self _).symm

theorem State.stepStage_writeIndex {c : Call} {st : Stage} (h : st ≠ .advance) :
    (W.stepStage cfg c st).writeIndex = W.writeIndex := by
  cases st with
  | advance => exact absurd rfl h
  | copy k =>
    simp only [stepStage]
    split <;> rfl
  | _ => rfl

/-- While a reader holds the mutex of a slot, the writer does not touch the slot. -/
theorem WriterStep.seq_held (h : WriterStep cfg W W') (hinv : Inv cfg W) {s : ℕ}
    (hinside : (W.handles r).pc.inside cfg = some s) :
    (W'.slots s).seq = (W.slots s).seq := by
  cases h with
  | enter => simp only [State.slots_setOwner]
  | @stage c stage hpc =>
    have hne : s ≠ cfg.place c.idx := by
      rintro rfl
      have hreader : W.inside cfg (.reader r) = some (cfg.place c.idx) := hinside
      cases hinv.exclusive.unique hreader (State.inside_within hpc)
    rw [State.stepStage_seq, if_neg hne]
  | _ => rfl

/-- What holds of the slots at every moment. -/
structure Current (cfg : Config) (W : State) : Prop where
  /-- What a slot names is at most a ring behind. -/
  recent : W.calls.length < 2 ^ 64 → ∀ k, (W.slots (cfg.place k)).seq = k + 1 →
    W.writeIndex ≤ k + cfg.slotCount
  /-- A slot from which a reader has copied is as the reader found it. -/
  held : ∀ r index frame, (W.handles r).pc.frame? = some (index, frame) →
    (W.slots (cfg.place index)).seq = next index

namespace Current

theorem start : Current cfg (ring cfg).start where
  recent := fun _ _ _ => Nat.zero_le _
  held := nofun

/-- `write_index` moves on. What was a ring behind it is no longer named: that was the slot the
call has written to. -/
theorem recent_advance (hinv : Inv cfg W) (h : Current cfg W) {c : Call}
    (hpc : W.writer = .within c .advance) (hbound : W.calls.length < 2 ^ 64) {k : ℕ}
    (hk : (W.slots (cfg.place k)).seq = k + 1) : next c.idx ≤ k + cfg.slotCount := by
  have hwriter := hinv.writer
  rw [WriterOk, hpc] at hwriter
  obtain ⟨n, hcalls, -, hidx, hindex, hseq⟩ := hwriter
  have hbehind := h.recent hbound k hk
  have hpos := cfg.slotCount_pos
  have hn : n % 2 ^ 64 = n := Nat.mod_eq_of_lt (by omega)
  have hnext : next c.idx = n + 1 := by
    rw [hidx, next_mod]
    exact Nat.mod_eq_of_lt (by omega)
  have hne : c.idx ≠ k + cfg.slotCount := by
    intro heq
    have hplace : cfg.place k = cfg.place c.idx := by
      rw [heq, Config.place_eq, Config.place_eq, Nat.add_mod_right]
    rw [hplace] at hk
    omega
  omega

theorem recent_stage (hinv : Inv cfg W) (h : Current cfg W) {c : Call} {st : Stage}
    (hpc : W.writer = .within c st) (hbound : W.calls.length < 2 ^ 64) {k : ℕ}
    (hk : ((W.stepStage cfg c st).slots (cfg.place k)).seq = k + 1) :
    (W.stepStage cfg c st).writeIndex ≤ k + cfg.slotCount := by
  have hwriter := hinv.writer
  rw [WriterOk, hpc] at hwriter
  obtain ⟨n, -, -, hidx, hstage⟩ := hwriter
  -- the slot names the call itself, or what it named before
  have hcase : st = .stamp ∧ next c.idx = k + 1 ∨ (W.slots (cfg.place k)).seq = k + 1 := by
    rw [State.stepStage_seq] at hk
    split at hk
    · cases st with
      | invalidate => cases hk
      | stamp => exact Or.inl ⟨rfl, hk⟩
      | _ => exact Or.inr hk
    · exact Or.inr hk
  rcases hcase with ⟨rfl, hself⟩ | hbefore
  · have hindex := hstage.1
    change W.writeIndex ≤ k + cfg.slotCount
    unfold next at hself
    omega
  · by_cases hst : st = .advance
    · subst hst
      exact recent_advance hinv h hpc hbound hbefore
    · rw [State.stepStage_writeIndex hst]
      exact h.recent hbound k hbefore

/-- **The writer.** -/
theorem stepWriter (hinv : Inv cfg W) (h : Current cfg W) (hstep : WriterStep cfg W W') :
    Current cfg W' := by
  refine ⟨fun hbound k hk => ?_, fun r index frame hgot => ?_⟩
  · have hbefore := lt_of_le_of_lt (State.stepWriter_frame hstep).2.2.2.length_le hbound
    cases hstep with
    | stage hpc => exact recent_stage hinv h hpc hbefore hk
    | enter hpc hfree =>
      simp only [State.slots_setOwner] at hk
      exact h.recent hbefore k hk
    | _ => exact h.recent hbefore k hk
  · rw [(State.stepWriter_frame hstep).2.1] at hgot
    rw [hstep.seq_held hinv (ReaderPc.inside_of_frame hgot)]
    exact h.held r index frame hgot

/-- **A reader.** -/
theorem stepReader (h : Current cfg W) (hstep : ReaderStep cfg W r W') : Current cfg W' := by
  obtain ⟨-, hindex, hcalls, hothers⟩ := State.stepReader_frame hstep
  refine ⟨fun hbound k hk => ?_, fun q index frame hgot => ?_⟩
  · rw [hstep.seq] at hk
    rw [hindex]
    exact h.recent (hcalls ▸ hbound) k hk
  · rw [hstep.seq]
    by_cases hq : q = r
    · subst hq
      cases hstep.kept with
      | still hreturns hframe =>
        rcases hframe index frame hgot with hbefore | ⟨-, hseq⟩
        · exact h.held q index frame hbefore
        · exact hseq
      | returned hself hreturned =>
        rw [hself] at hgot
        cases hgot
    · rw [hothers q hq] at hgot
      exact h.held q index frame hgot

/-- **Every run.** -/
theorem reachable (h : (ring cfg).Reachable W) : Current cfg W := by
  refine h.induction (P := Current cfg) start ?_
  intro W a W' hreach hcurrent hstep
  cases a with
  | writer a => exact stepWriter (Inv.reachable hreach) hcurrent (State.stepWriter_cases hstep)
  | reader r a => exact stepReader hcurrent (State.stepReader_cases hstep)

end Current

/-! ### Where a lapped reader is sent -/

/-- A call whose `seq` a reader finds in the slot it holds is complete, up to `write_index`: that
is stored before the mutex is given back. -/
theorem Inv.complete (h : Inv cfg W) (hlive : W.writer ≠ .dead) (hbound : W.calls.length < 2 ^ 64)
    {s : ℕ} (hinside : (W.handles r).pc.inside cfg = some s) (hseq : (W.slots s).seq ≠ 0) :
    ∃ k, (W.slots s).seq = k + 1 ∧ cfg.place k = s ∧ k < W.writeIndex := by
  obtain ⟨k, frame, hk, hplace, hnamed, -, -⟩ := h.filled s hseq
  have hlt : k < W.calls.length := (List.getElem?_eq_some_iff.mp hk).1
  have hmod : k % 2 ^ 64 = k := Nat.mod_eq_of_lt (by omega)
  have hmod' : (k + 1) % 2 ^ 64 = k + 1 := Nat.mod_eq_of_lt (by omega)
  rw [hmod] at hplace
  rw [hmod'] at hnamed
  refine ⟨k, hnamed, hplace, ?_⟩
  have hwriter := h.writer
  obtain ⟨m, hindex, hcalls⟩ := h.calls_length
  have hm : m % 2 ^ 64 = m := Nat.mod_eq_of_lt (by omega)
  cases hpc : W.writer with
  | dead => exact absurd hpc hlive
  | within c stage =>
    -- the call under way has the mutex of another slot, so this is an earlier one
    rw [WriterOk, hpc] at hwriter
    obtain ⟨n, hlength, -, hidx, -⟩ := hwriter
    have hne : k ≠ n := by
      rintro rfl
      rw [hmod] at hidx
      have hother : W.inside cfg .writer = some s := by
        rw [State.inside_within hpc, hidx, hplace]
      cases h.exclusive.unique hother (show W.inside cfg (.reader r) = some s from hinside)
    omega
  | idle =>
    rw [WriterOk, hpc] at hwriter
    dsimp only at hwriter
    omega
  | pid | cursor | enter =>
    rw [WriterOk, hpc] at hwriter
    have := hwriter.1
    omega

/-- A reader that is lapped is more than a ring behind `write_index`. -/
theorem lapped_behind (h : Inv cfg W) (hlive : W.writer ≠ .dead)
    (hbound : W.calls.length < 2 ^ 64) {index : ℕ} (hindex : index < 2 ^ 64 - 1)
    (hpc : (W.handles r).pc = .within index)
    (hseq : (W.slots (cfg.place index)).seq > next index) :
    index + cfg.slotCount < W.writeIndex := by
  have hnext : next index = index + 1 := Nat.mod_eq_of_lt (by omega)
  obtain ⟨k, hk, hplace, hlt⟩ :=
    h.complete (r := r) (s := cfg.place index) hlive hbound (by rw [hpc]; rfl) (by omega)
  have hapart := cfg.add_le_of_place_eq hplace.symm (by omega)
  omega

/-- A reader that has a frame has one that is published. -/
theorem got_published (h : Inv cfg W) (hcurrent : Current cfg W) (hlive : W.writer ≠ .dead)
    (hbound : W.calls.length < 2 ^ 64) {index : ℕ} (hindex : index < 2 ^ 64 - 1)
    {frame : List Byte} (hgot : (W.handles r).pc.frame? = some (index, frame)) :
    index < W.writeIndex := by
  have hseq := hcurrent.held r index frame hgot
  have hnext : next index = index + 1 := Nat.mod_eq_of_lt (by omega)
  obtain ⟨k, hk, -, hlt⟩ :=
    h.complete (r := r) hlive hbound (ReaderPc.inside_of_frame hgot) (by omega)
  omega

/-! ### What is gone is gone -/

/-- `write_index` does not go back before it comes round. -/
theorem WriterStep.writeIndex_le (h : WriterStep cfg W W') (hinv : Inv cfg W)
    (hbound : W'.calls.length < 2 ^ 64) : W.writeIndex ≤ W'.writeIndex := by
  cases h with
  | @stage c stage hpc =>
    by_cases hstage : stage = .advance
    · subst hstage
      have hwriter := hinv.writer
      rw [WriterOk, hpc] at hwriter
      obtain ⟨n, hcalls, -, hidx, hindex, -⟩ := hwriter
      have hlength : W.calls.length < 2 ^ 64 := hbound
      have hnext : next c.idx = (n + 1) % 2 ^ 64 := by rw [hidx, next_mod]
      change W.writeIndex ≤ next c.idx
      omega
    · exact (State.stepStage_writeIndex hstage).ge
  | _ => exact le_rfl

theorem calls_length_le {a : Action} (h : (ring cfg).step W a = some W') :
    W.calls.length ≤ W'.calls.length := by
  cases a with
  | writer a => exact (State.stepWriter_frame (State.stepWriter_cases h)).2.2.2.length_le
  | reader r a => rw [(State.stepReader_frame (State.stepReader_cases h)).2.2.1]

theorem writeIndex_mono (hreach : (ring cfg).Reachable W) (h : (ring cfg).Leads W W')
    (hbound : W'.calls.length < 2 ^ 64) : W.writeIndex ≤ W'.writeIndex := by
  refine (h.invariant (P := fun V => (ring cfg).Reachable V ∧
    (V.calls.length < 2 ^ 64 → W.writeIndex ≤ V.writeIndex)) ?_ ⟨hreach, fun _ => le_rfl⟩).2 hbound
  rintro V a V' ⟨hV, hle⟩ hstep
  refine ⟨hV.leads (.step hstep (.refl V')), fun hbound' => ?_⟩
  have hbefore := hle (lt_of_le_of_lt (calls_length_le hstep) hbound')
  cases a with
  | writer a =>
    exact hbefore.trans
      ((State.stepWriter_cases hstep).writeIndex_le (Inv.reachable hV) hbound')
  | reader r a =>
    rw [(State.stepReader_frame (State.stepReader_cases hstep)).2.1]
    exact hbefore

/-- **No later call returns** a frame that a complete call has overwritten. -/
theorem not_returned (hreach : (ring cfg).Reachable W) {k : ℕ}
    (hk : k + cfg.slotCount < W.writeIndex) (h : (ring cfg).Leads W W')
    (hbound : W'.calls.length < 2 ^ 64) (q : ℕ) :
    ∃ more, (W'.handles q).returns = (W.handles q).returns ++ more ∧
      ∀ frame, (k, .ok frame) ∉ more := by
  refine (h.invariant (P := fun V => (ring cfg).Leads W V ∧ (V.calls.length < 2 ^ 64 →
    ∃ more, (V.handles q).returns = (W.handles q).returns ++ more ∧
      ∀ frame, (k, .ok frame) ∉ more)) ?_ ⟨.refl W, fun _ => ⟨[], ?_, ?_⟩⟩).2 hbound
  · rintro V a V' ⟨hleads, hmore⟩ hstep
    refine ⟨hleads.trans (.step hstep (.refl V')), fun hbound' => ?_⟩
    have hlength := lt_of_le_of_lt (calls_length_le hstep) hbound'
    obtain ⟨more, hreturns, hnot⟩ := hmore hlength
    cases a with
    | writer a =>
      rw [(State.stepWriter_frame (State.stepWriter_cases hstep)).2.1]
      exact ⟨more, hreturns, hnot⟩
    | reader r a =>
      have hmove := State.stepReader_cases hstep
      by_cases hq : q = r
      · subst hq
        cases hmove.kept with
        | still hstill => exact ⟨more, hstill.trans hreturns, hnot⟩
        | @returned index status hself hreturned =>
          refine ⟨more ++ [(index, status)], ?_, fun frame hmem => ?_⟩
          · rw [hself, ← List.append_assoc, ← hreturns]
            rfl
          · rcases List.mem_append.mp hmem with hmem | hmem
            · exact hnot frame hmem
            · -- the reader has the frame, so the slot still names it
              cases List.mem_singleton.mp hmem
              cases hreturned with
              | ok hpc =>
                have hV := hreach.leads hleads
                have hcurrent := Current.reachable hV
                have hmono := writeIndex_mono hreach hleads hlength
                obtain ⟨m, hindex, hcalls⟩ := (Inv.reachable hV).calls_length
                have hseq := hcurrent.held q k frame (by rw [hpc]; rfl)
                have hnext : next k = k + 1 := Nat.mod_eq_of_lt (by omega)
                have hbehind := hcurrent.recent hlength k (hseq.trans hnext)
                omega
      · rw [(State.stepReader_frame hmove).2.2.2 q hq]
        exact ⟨more, hreturns, hnot⟩
  · exact (List.append_nil _).symm
  · exact fun _ => List.not_mem_nil

/-! ### The next call -/

/-- Until another call of `publish` comes to a slot, the frame is there. -/
theorem resume_named (hreach : (ring cfg).Reachable W) (hidle : W.writer = .idle)
    (hbound : W.calls.length < 2 ^ 64) (hfull : cfg.slotCount < W.writeIndex)
    (h : (ring cfg).Leads W W') (hcalls : W'.calls.length = W.calls.length) :
    (W'.slots (cfg.place (W.writeIndex - cfg.slotCount))).seq =
      W.writeIndex - cfg.slotCount + 1 := by
  have hpos := cfg.slotCount_pos
  have hwriter := (Inv.reachable hreach).writer
  rw [WriterOk, hidle] at hwriter
  dsimp only at hwriter
  have hmono := writeIndex_mono hreach h (by omega)
  exact (Inv.reachable (hreach.leads h)).latest (by omega) _ (by omega) (by omega)

/-- `read` with the mutex of a slot that names what it asks for. -/
theorem check_copies (h : Inv cfg W) (hbound : W.calls.length < 2 ^ 64) {index : ℕ}
    (hindex : index < 2 ^ 64 - 1) (hseq : (W.slots (cfg.place index)).seq = index + 1) :
    ∃ frame, W.calls[index]? = some frame ∧
      W.check cfg r index = W.setHandle r { W.handles r with pc := .copied index frame } := by
  have hnext : next index = index + 1 := Nat.mod_eq_of_lt (by omega)
  have hlow : ¬ (W.slots (cfg.place index)).seq < next index := by omega
  have hhigh : ¬ (W.slots (cfg.place index)).seq > next index := by omega
  obtain ⟨k, frame, ⟨hk, hbits⟩, hgood, hbytes⟩ := h.hit hindex hlow hhigh
  have hlt := (List.getElem?_eq_some_iff.mp hk).1
  have heq : k = index := by omega
  refine ⟨frame, heq ▸ hk, ?_⟩
  unfold State.check
  dsimp only
  rw [if_neg hlow, if_neg hhigh, if_neg hgood, hbytes]

/-- **`read` returns the frame** when it finds the mutex free. -/
theorem read_named (hreach : (ring cfg).Reachable W) (hbound : W.calls.length < 2 ^ 64) {index : ℕ}
    (hindex : index < 2 ^ 64 - 1) (hpc : (W.handles r).pc = .enter index)
    (hfree : W.free (W.slots (cfg.place index)).owner = true)
    (hseq : (W.slots (cfg.place index)).seq = index + 1) :
    ∃ frame V, W.calls[index]? = some frame ∧
      (ring cfg).run W (List.replicate 4 (.reader r .next)) = some V ∧
      (V.handles r).returns = (W.handles r).returns ++ [(index, .ok frame)] := by
  -- the mutex
  obtain ⟨V₁, h₁, hV₁⟩ : ∃ V₁, (ring cfg).step W (.reader r .next) = some V₁ ∧
      V₁ = (W.setOwner (cfg.place index) (some (.reader r))).setHandle r
        { W.handles r with pc := .within index } := by
    refine ⟨_, ?_, rfl⟩
    simp only [ring_reader, State.stepReader, hpc, hfree, if_true]
  have hmove : ReaderStep cfg W r V₁ := State.stepReader_cases (a := .next) h₁
  have hself₁ : V₁.handles r = { W.handles r with pc := .within index } := by
    rw [hV₁, State.handles_setHandle]
  have hseq₁ : (V₁.slots (cfg.place index)).seq = index + 1 := by
    rw [hmove.seq]
    exact hseq
  have hcalls₁ : V₁.calls = W.calls := (State.stepReader_frame hmove).2.2.1
  -- the test
  obtain ⟨frame, hframe, hcopies⟩ := check_copies (r := r)
    (Inv.reachable (hreach.leads (.step h₁ (.refl V₁)))) (hcalls₁ ▸ hbound) hindex hseq₁
  have h₂ : (ring cfg).step V₁ (.reader r .next) =
      some (V₁.setHandle r { W.handles r with pc := .copied index frame }) := by
    rw [hself₁] at hcopies
    simp only [ring_reader, State.stepReader, hself₁, hcopies]
  -- the cursor, if there is one
  obtain ⟨V₃, h₃, hself₃⟩ : ∃ V₃, (ring cfg).step
      (V₁.setHandle r { W.handles r with pc := .copied index frame }) (.reader r .next) = some V₃ ∧
        V₃.handles r = { W.handles r with pc := .stored index frame } := by
    simp only [ring_reader, State.stepReader, State.handles_setHandle]
    exact ⟨_, rfl, State.handles_setHandle r _⟩
  have h₄ : (ring cfg).step V₃ (.reader r .next) =
      some (V₃.released cfg r index (.ok frame)) := by
    simp only [ring_reader, State.stepReader, hself₃]
  refine ⟨frame, V₃.released cfg r index (.ok frame), hcalls₁ ▸ hframe, ?_, ?_⟩
  · simp only [List.replicate_succ, List.replicate_zero, Machine.run_cons, h₁, h₂, h₃, h₄,
      Option.bind_some, Machine.run_nil]
  · unfold State.released
    rw [State.handles_setHandle, hself₃]
    rfl

/-- Whenever a call for a frame that its slot names returns, it returns the frame, unless the mutex
is taken. -/
theorem named_returns (h : Inv cfg W) (hbound : W.calls.length < 2 ^ 64) {index : ℕ}
    (hindex : index < 2 ^ 64 - 1) (hseq : (W.slots (cfg.place index)).seq = index + 1)
    (hstep : (ring cfg).step W (.reader r .next) = some W') {status : FrameStatus}
    (hreturns : (W'.handles r).returns = (W.handles r).returns ++ [(index, status)]) :
    (∃ frame, status = .ok frame ∧ W.calls[index]? = some frame) ∨
      status = .empty ∧ W.free (W.slots (cfg.place index)).owner = false := by
  have hnext : next index = index + 1 := Nat.mod_eq_of_lt (by omega)
  have hmove : ReaderStep cfg W r W' := State.stepReader_cases (a := .next) hstep
  obtain ⟨hself, hreturned⟩ := hmove.kept.returned_of hreturns
  cases hreturned with
  | @ok frame hpc =>
    obtain ⟨k, hk, hbits⟩ := (h.handles r).got index frame (by rw [hpc]; rfl) hindex
    have hlt := (List.getElem?_eq_some_iff.mp hk).1
    have heq : k = index := by omega
    exact Or.inl ⟨frame, rfl, heq ▸ hk⟩
  | busy hpc =>
    refine Or.inr ⟨rfl, ?_⟩
    by_contra hfree
    rw [Bool.not_eq_false] at hfree
    -- then the call would have got the mutex and not returned
    rw [ring_reader] at hstep
    simp only [State.stepReader, hpc, hfree, if_true, Option.some.injEq] at hstep
    rw [← hstep, State.handles_setHandle] at hself
    have hpc' := congrArg Handle.pc hself
    cases hpc'
  | lapped hpc hhigh => omega
  | early hpc hlow => omega
  | corrupt hpc hnamed hbad =>
    obtain ⟨-, -, -, hgood, -⟩ := h.hit hindex (by omega) (by omega)
    exact absurd hbad hgood

/-! ### The frames a loop has passed over -/

/-- The indices of the frames that were returned. -/
def readIndices (returns : List (ℕ × FrameStatus)) : List ℕ :=
  returns.filterMap fun
    | (index, .ok _) => some index
    | _ => none

theorem readIndices_concat (returns : List (ℕ × FrameStatus)) (e : ℕ × FrameStatus) :
    readIndices (returns ++ [e]) = readIndices returns ++ readIndices [e] :=
  List.filterMap_append ..

/-- A loop that began at `origin` stands at `n`, has taken some frames and has counted those that
it skipped. -/
structure Placed (origin n edge skipped : ℕ) (taken : List ℕ) : Prop where
  origin_le : origin ≤ n
  le_edge : n ≤ edge
  below : ∀ k ∈ taken, k < n
  skipped_eq : skipped = (missing origin n taken).card

namespace Placed

variable {origin n edge skipped : ℕ} {taken : List ℕ}

theorem begin (h : n ≤ edge) : Placed n n edge 0 [] where
  origin_le := le_rfl
  le_edge := h
  below := fun _ hmem => absurd hmem List.not_mem_nil
  skipped_eq := by
    rw [missing_self]
    rfl

/-- The frame it stands at is taken. -/
theorem took (h : Placed origin n edge skipped taken) (hn : n < edge) :
    Placed origin (n + 1) edge skipped (taken ++ [n]) where
  origin_le := h.origin_le.trans (Nat.le_succ n)
  le_edge := hn
  below := fun k hmem => by
    rcases List.mem_append.mp hmem with hmem | hmem
    · exact (h.below k hmem).trans (Nat.lt_succ_self n)
    · rw [List.mem_singleton.mp hmem]
      exact Nat.lt_succ_self n
  skipped_eq := by
    have hmem : n ∈ taken ++ [n] := List.mem_append_right taken (List.mem_singleton_self n)
    rw [card_missing_succ h.origin_le, if_pos hmem, missing_concat le_rfl]
    exact h.skipped_eq

/-- It is sent on to `m`. -/
theorem jumped (h : Placed origin n edge skipped taken) {m : ℕ} (hnm : n ≤ m) (hm : m ≤ edge) :
    Placed origin m edge (skipped + (m - n)) taken where
  origin_le := h.origin_le.trans hnm
  le_edge := hm
  below := fun k hmem => lt_of_lt_of_le (h.below k hmem) hnm
  skipped_eq := by rw [card_missing_jump h.origin_le hnm h.below, h.skipped_eq]

theorem mono (h : Placed origin n edge skipped taken) {edge' : ℕ} (hedge : edge ≤ edge') :
    Placed origin n edge' skipped taken :=
  { h with le_edge := h.le_edge.trans hedge }

end Placed

variable {S S' : World}

/-- The writer and a reader are alive, and the indices have not come to their end. -/
structure Running (S : World) (r : ℕ) : Prop where
  writer : S.ring.writer ≠ .dead
  reader : (S.ring.handles r).pc ≠ .dead
  bound : S.ring.calls.length < 2 ^ 64 - 1

/-- A step into a running world was taken in a running world. -/
theorem Running.of_moved (h : Running S' r) (hmoved : Moved cfg S S') : Running S r := by
  cases hmoved with
  | writer hstep =>
    obtain ⟨-, hhandles, -, hcalls⟩ := State.stepWriter_frame hstep
    refine ⟨hstep.alive h.writer, ?_, lt_of_le_of_lt hcalls.length_le h.bound⟩
    rw [← hhandles]
    exact h.reader
  | @reader q ring hstep =>
    obtain ⟨hwriter, -, hcalls, hothers⟩ := State.stepReader_frame hstep
    refine ⟨hwriter ▸ h.writer, ?_, hcalls ▸ h.bound⟩
    by_cases hq : r = q
    · subst hq
      exact hstep.alive h.reader
    · rw [← hothers r hq]
      exact h.reader
  | begin => exact ⟨h.writer, h.reader, h.bound⟩

/-- Where the loop of reader `r` stands. -/
structure Passed (S : World) (r : ℕ) : Prop where
  fresh : (S.ring.handles r).returns = [] → (S.clients r).skippedMessages = 0
  placed : ∀ n, (S.clients r).readIndex = some n →
    Placed (S.clients r).origin n S.ring.writeIndex (S.clients r).skippedMessages
      (readIndices (S.ring.handles r).returns)

namespace Passed

theorem start : Passed (loops cfg).start r where
  fresh := fun _ => rfl
  placed := nofun

theorem congr (h : Passed S r) (hreturns : (S'.ring.handles r).returns = (S.ring.handles r).returns)
    (hclient : S'.clients r = S.clients r) (hindex : S.ring.writeIndex ≤ S'.ring.writeIndex) :
    Passed S' r := by
  refine ⟨?_, fun n hn => ?_⟩
  · rw [hreturns, hclient]
    exact h.fresh
  · rw [hclient] at hn ⊢
    rw [hreturns]
    exact (h.placed n hn).mono hindex

/-- A call returns. -/
theorem returned {W : State} {index : ℕ} {status : FrameStatus}
    (hself : W.handles r = (S.ring.handles r).return index status)
    (hindex : W.writeIndex = S.ring.writeIndex)
    (hplaced : ∀ n, ((S.clients r).after status).readIndex = some n →
      Placed ((S.clients r).after status).origin n S.ring.writeIndex
        ((S.clients r).after status).skippedMessages
        (readIndices (S.ring.handles r).returns ++ readIndices [(index, status)])) :
    Passed (S.moved r W) r := by
  have hclient : (S.moved r W).clients r = (S.clients r).after status := by
    rw [World.clients_moved, World.advanced_return hself]
  have hreturns : ((S.moved r W).ring.handles r).returns =
      (S.ring.handles r).returns ++ [(index, status)] := congrArg Handle.returns hself
  refine ⟨fun hnil => ?_, fun n hn => ?_⟩
  · rw [hreturns] at hnil
    exact absurd hnil (List.append_ne_nil_of_right_ne_nil _ (List.cons_ne_nil _ _))
  · rw [hclient] at hn ⊢
    rw [hreturns, readIndices_concat]
    change Placed _ n W.writeIndex _ _
    rw [hindex]
    exact hplaced n hn

/-- **What the loop does** with what `read` returns. -/
theorem after (hinv : Inv cfg S.ring) (hcurrent : Current cfg S.ring) (h : Passed S r)
    (hrunning : Running S r) {index : ℕ} {status : FrameStatus}
    (hread : (S.clients r).readIndex = some index)
    (hreturned : Returned cfg S.ring r index status) (n : ℕ)
    (hn : ((S.clients r).after status).readIndex = some n) :
    index ≤ n ∧ Placed ((S.clients r).after status).origin n S.ring.writeIndex
      ((S.clients r).after status).skippedMessages
      (readIndices (S.ring.handles r).returns ++ readIndices [(index, status)]) := by
  have hplaced := h.placed index hread
  have hedge := hplaced.le_edge
  have hbound := hrunning.bound
  obtain ⟨m, hm, hcalls⟩ := hinv.calls_length
  -- far from the largest index, so `next` does not wrap
  have hindex : index < 2 ^ 64 - 1 := by omega
  cases hreturned with
  | @ok frame hpc =>
    have hgot : (S.ring.handles r).pc.frame? = some (index, frame) := by
      rw [hpc]
      rfl
    have hlt : index < S.ring.writeIndex :=
      got_published hinv hcurrent hrunning.writer (by omega) hindex hgot
    have hnext : next index = index + 1 := Nat.mod_eq_of_lt (by omega)
    rw [Client.after, hread] at hn
    obtain rfl : next index = n := Option.some.inj hn
    rw [hnext]
    exact ⟨Nat.le_succ index, hplaced.took hlt⟩
  | lapped hpc hseq =>
    -- the frame asked for is overwritten, so the reader is sent forward
    have hbehind := lapped_behind hinv hrunning.writer (by omega) hindex hpc hseq
    rw [if_pos (by omega)] at hn ⊢
    obtain rfl := Option.some.inj hn
    have hmore : S.ring.writeIndex - cfg.slotCount > index := by omega
    refine ⟨hmore.le, ?_⟩
    simp only [Client.after, hread, if_pos hmore]
    rw [show readIndices [(index, FrameStatus.lapped (S.ring.writeIndex - cfg.slotCount))] = [] from
      rfl, List.append_nil]
    exact hplaced.jumped hmore.le (Nat.sub_le _ _)
  | busy | early =>
    obtain rfl : index = n := Option.some.inj (hread.symm.trans hn)
    rw [show readIndices [(index, FrameStatus.empty)] = [] from rfl, List.append_nil]
    exact ⟨le_rfl, hplaced⟩
  | corrupt => cases hn

/-- **One step.** -/
theorem step (hreach : (loops cfg).Reachable S) (h : Passed S r) (hrunning : Running S' r)
    (hmoved : Moved cfg S S') : Passed S' r := by
  have hbefore := hrunning.of_moved hmoved
  have hring := World.ring_reachable hreach
  cases hmoved with
  | writer hstep =>
    refine h.congr ?_ rfl (hstep.writeIndex_le (Inv.reachable hring) ?_)
    · exact congrArg Handle.returns (congrFun (State.stepWriter_frame hstep).2.1 r)
    · exact hrunning.bound.trans (by decide)
  | @reader q W hstep hcall =>
    obtain ⟨-, hindex, -, hothers⟩ := State.stepReader_frame hstep
    by_cases hq : r = q
    · subst hq
      cases hstep.kept with
      | still hstill =>
        refine h.congr hstill ?_ hindex.ge
        rw [World.clients_moved]
        exact World.advanced_still hrunning.reader hstill
      -- the loop acts on the return in the same step
      | returned hself hreturned =>
        have hread := (Follows.reachable hreach r).call _ hreturned.index
        refine returned hself hindex fun n hn => ?_
        exact (h.after (Inv.reachable hring) (Current.reachable hring) hbefore hread hreturned
          n hn).2
    · exact h.congr (congrArg Handle.returns (hothers r hq)) (World.clients_moved_of_ne hq W)
        hindex.ge
  | @begin q fromEdge hpc hnew hreturns =>
    by_cases hq : r = q
    · subst hq
      have hclient : Function.update S.clients r
          ((S.clients r).begin (if fromEdge then S.ring.writeIndex else 0)) r =
            (S.clients r).begin (if fromEdge then S.ring.writeIndex else 0) :=
        Function.update_self ..
      refine ⟨fun hnil => ?_, fun n hn => ?_⟩
      · dsimp only
        rw [hclient]
        exact h.fresh hnil
      · dsimp only at hn ⊢
        rw [hclient] at hn ⊢
        obtain rfl := Option.some.inj hn
        rw [hreturns]
        change Placed _ _ _ (S.clients r).skippedMessages _
        rw [h.fresh hreturns]
        refine Placed.begin ?_
        split
        · exact le_rfl
        · exact Nat.zero_le _
    · exact h.congr rfl (Function.update_of_ne hq ..) le_rfl

/-- **Every run.** -/
theorem reachable (h : (loops cfg).Reachable S) (hrunning : Running S r) : Passed S r := by
  refine h.induction (P := fun S => Running S r → Passed S r) (fun _ => start) ?_ hrunning
  intro S m S' hreach hpassed hmove hrunning
  have hmoved := loops_cases hmove
  exact (hpassed (hrunning.of_moved hmoved)).step hreach hrunning hmoved

/-- **`read_index` does not go back.** -/
theorem readIndex_le (hreach : (loops cfg).Reachable S) (hrunning : Running S r)
    (hmoved : Moved cfg S S') {n m : ℕ} (hn : (S.clients r).readIndex = some n)
    (hm : (S'.clients r).readIndex = some m) : n ≤ m := by
  have hsame : (S'.clients r).readIndex = (S.clients r).readIndex → n ≤ m := fun heq =>
    (Option.some.inj (hn.symm.trans (heq.symm.trans hm))).le
  have hring := World.ring_reachable hreach
  have hpassed := reachable hreach hrunning
  cases hmoved with
  | writer => exact hsame rfl
  | @reader q W hstep hcall =>
    by_cases hq : r = q
    · subst hq
      rw [World.clients_moved] at hm hsame
      cases hstep.kept with
      | still hstill =>
        by_cases hdead : (W.handles r).pc = .dead
        · -- of a process that dies there remains how far it had read
          rw [World.advanced_dead hdead] at hm
          have hm' : S.position r = some m := hm
          unfold World.position at hm'
          split at hm'
          · next index frame hpc =>
            have hcall := (Follows.reachable hreach r).call index (by rw [hpc]; rfl)
            obtain rfl := Option.some.inj (hcall.symm.trans hn)
            have hedge := (hpassed.placed index hn).le_edge
            obtain ⟨k, hk, hcalls⟩ := (Inv.reachable hring).calls_length
            have hbound := hrunning.bound
            have hnext : next index = index + 1 := Nat.mod_eq_of_lt (by omega)
            have := Option.some.inj hm'
            omega
          · exact (Option.some.inj (hn.symm.trans hm')).le
        · rw [World.advanced_still hdead hstill] at hsame
          exact hsame rfl
      | returned hself hreturned =>
        rw [World.advanced_return hself] at hm
        have hread := (Follows.reachable hreach r).call _ hreturned.index
        obtain rfl := Option.some.inj (hread.symm.trans hn)
        exact (hpassed.after (Inv.reachable hring) (Current.reachable hring) hrunning hread
          hreturned m hm).1
    · rw [World.clients_moved_of_ne hq] at hsame
      exact hsame rfl
  | @begin q fromEdge hpc hnew hreturns =>
    by_cases hq : r = q
    · subst hq
      rw [hnew] at hn
      cases hn
    · exact hsame (by dsimp only; rw [Function.update_of_ne hq])

end Passed

/-! ### Lapping -/

/-- What `kLapped` with `resume`, returned by `W.check cfg r index`, says. -/
structure SkipsGone (cfg : Config) (W : State) (r index resume : ℕ) : Prop where
  ahead : index < resume
  /-- The frames below `resume` have been overwritten, by calls that are complete. -/
  overwritten : ∀ k, index ≤ k → k < resume →
    k + cfg.slotCount < W.writeIndex ∧ (W.slots (cfg.place k)).seq ≠ k + 1
  /-- Nobody reads them any more. -/
  unread : ∀ k, index ≤ k → k < resume → ∀ V, (ring cfg).Leads (W.check cfg r index) V →
    V.calls.length < 2 ^ 64 → ∀ q, ∃ more,
      (V.handles q).returns = ((W.check cfg r index).handles q).returns ++ more ∧
      ∀ frame, (k, .ok frame) ∉ more
  /-- While no other frame is published, the call that comes to the mutex when it is free returns
  the frame with the number `resume`. -/
  resumes : W.writer = .idle → ∀ V, (ring cfg).Leads (W.check cfg r index) V →
    V.calls.length = W.calls.length → (V.handles r).pc = .enter resume →
    V.free (V.slots (cfg.place resume)).owner = true →
      ∃ frame V', V.calls[resume]? = some frame ∧
        (ring cfg).run V (List.replicate 4 (.reader r .next)) = some V' ∧
        (V'.handles r).returns = (V.handles r).returns ++ [(resume, .ok frame)]
  /-- However it is interrupted, it returns nothing else, unless the mutex is taken. -/
  returns : W.writer = .idle → ∀ V V' status, (ring cfg).Leads (W.check cfg r index) V →
    V.calls.length = W.calls.length → (ring cfg).step V (.reader r .next) = some V' →
    (V'.handles r).returns = (V.handles r).returns ++ [(resume, status)] →
      (∃ frame, status = .ok frame ∧ V.calls[resume]? = some frame) ∨
        status = .empty ∧ V.free (V.slots (cfg.place resume)).owner = false

/-- **A lapped reader skips exactly what is gone.** For every ring, whatever the interleaving, with
fewer than `2 ^ 64` calls of `publish` and an index below the largest:

* `kLapped` says `SkipsGone`;
* a loop stands at or below the edge, what it has counted in `skipped_messages` are the frames
  between where it began and where it stands that it was not given, and no step takes it back. -/
theorem lapped_skips_gone (cfg : Config) :
    (∀ W r index resume, (ring cfg).Reachable W → W.writer ≠ .dead → W.calls.length < 2 ^ 64 →
      index < 2 ^ 64 - 1 → (W.handles r).pc = .within index →
      ((W.check cfg r index).handles r).returns =
        (W.handles r).returns ++ [(index, .lapped resume)] → SkipsGone cfg W r index resume) ∧
    ∀ S r, (loops cfg).Reachable S → Running S r → ∀ n, (S.clients r).readIndex = some n →
      n ≤ S.ring.writeIndex ∧
      (S.clients r).skippedMessages = ((Finset.Ico (S.clients r).origin n).filter
        (· ∉ readIndices (S.ring.handles r).returns)).card ∧
      ∀ m S' n', (loops cfg).step S m = some S' → (S'.clients r).readIndex = some n' → n ≤ n' := by
  refine ⟨fun W r index resume hreach hlive hbound hindex hpc hreturns => ?_,
    fun S r hreach hrunning n hn => ?_⟩
  · have hinv := Inv.reachable hreach
    have hcheck : (ring cfg).step W (.reader r .next) = some (W.check cfg r index) := by
      simp only [ring_reader, State.stepReader, hpc]
    have hreach' : (ring cfg).Reachable (W.check cfg r index) :=
      hreach.leads (.step hcheck (.refl _))
    have hmove : ReaderStep cfg W r (W.check cfg r index) := .check hpc
    obtain ⟨hwriter', hindex', hcalls', -⟩ := State.stepReader_frame hmove
    obtain ⟨-, hreturned⟩ := (State.check_kept hpc).returned_of hreturns
    -- where it is sent
    have hresume : index + cfg.slotCount < W.writeIndex ∧
        resume = W.writeIndex - cfg.slotCount := by
      cases hreturned with
      | lapped _ hseq =>
        have hbehind := lapped_behind hinv hlive hbound hindex hpc hseq
        exact ⟨hbehind, if_pos (by omega)⟩
    obtain ⟨hbehind, rfl⟩ := hresume
    have hnamed : W.writer = .idle → ∀ V, (ring cfg).Leads (W.check cfg r index) V →
        V.calls.length = W.calls.length →
        (V.slots (cfg.place (W.writeIndex - cfg.slotCount))).seq =
          W.writeIndex - cfg.slotCount + 1 := by
      intro hidle V hV hcalls
      have := resume_named hreach' (hwriter'.trans hidle) (hcalls' ▸ hbound) (by omega) hV
        (hcalls.trans (congrArg List.length hcalls'.symm))
      rw [hindex'] at this
      exact this
    obtain ⟨m, hm, hlength⟩ := hinv.calls_length
    have hpos := cfg.slotCount_pos
    refine ⟨by omega, fun k _ hk => ⟨by omega, fun hseq => ?_⟩, fun k _ hk V hV hV' q => ?_,
      fun hidle V hV hcalls hpc hfree => ?_, fun hidle V V' status hV hcalls hstep hstatus => ?_⟩
    · have := (Current.reachable hreach).recent hbound k hseq
      omega
    · exact not_returned hreach' (by omega) hV hV' q
    · exact read_named (hreach'.leads hV) (hcalls ▸ hbound) (by omega) hpc hfree
        (hnamed hidle V hV hcalls)
    · exact named_returns (Inv.reachable (hreach'.leads hV)) (hcalls ▸ hbound) (by omega)
        (hnamed hidle V hV hcalls) hstep hstatus
  · have hplaced := (Passed.reachable hreach hrunning).placed n hn
    refine ⟨hplaced.le_edge, hplaced.skipped_eq, fun m S' n' hstep hn' => ?_⟩
    exact Passed.readIndex_le hreach hrunning (loops_cases hstep) hn hn'

/-- In a ring of one slot, a second frame is published over the first, and then the first is asked
for. -/
def lappedRun : List Action :=
  publishUnchecked [7] ++ publishUnchecked [8] ++
    [.reader 0 .own, .reader 0 (.read 0), .reader 0 .next]

theorem first_frame_gone :
    ∃ W, (ring (oneSlot false)).run (ring (oneSlot false)).start lappedRun = some W ∧
      ((W.check (oneSlot false) 0 0).handles 0).returns = [(0, .lapped 1)] ∧
      SkipsGone (oneSlot false) W 0 0 1 := by
  have hfacts : ((ring (oneSlot false)).run (ring (oneSlot false)).start lappedRun).any
      (fun W => W.writer = .idle ∧ W.calls.length = 2 ∧ (W.handles 0).pc = .within 0 ∧
        (W.handles 0).returns = [] ∧
        ((W.check (oneSlot false) 0 0).handles 0).returns = [(0, .lapped 1)]) = true := by
    decide +kernel
  obtain ⟨W, hrun, heq⟩ := (Option.any_eq_true _ _).mp hfacts
  obtain ⟨hidle, hcalls, hpc, hnil, hreturns⟩ := of_decide_eq_true heq
  refine ⟨W, hrun, hreturns, (lapped_skips_gone (oneSlot false)).1 W 0 0 1 ⟨_, hrun⟩ ?_ ?_
    (by decide) hpc ?_⟩
  · rw [hidle]
    exact nofun
  · rw [hcalls]
    decide
  · rw [hnil]
    exact hreturns

/-! ### Where it ends -/

/-- A ring of two slots. -/
def twoSlots : Config where
  slotCount := 2
  power := rfl
  small := by decide
  backpressure := false

/-- A ring of two slots after `n` calls, with a reader that has not read. -/
structure Wound (n : ℕ) (W : State) : Prop where
  reachable : (ring twoSlots).Reachable W
  writer : W.writer = .idle
  writeIndex : W.writeIndex = n % 2 ^ 64
  owner : ∀ s, (W.slots s).owner = none
  named : ∀ k < n, n ≤ k + 2 → (W.slots (k % 2)).seq = (k + 1) % 2 ^ 64
  handle : (W.handles 0).pc = .idle ∧ (W.handles 0).returns = []

theorem wound (n : ℕ) : ∃ W, Wound n W := by
  induction n with
  | zero =>
    refine ⟨_, ⟨[.reader 0 .own], rfl⟩, rfl, rfl, fun _ => rfl, fun k hk => ?_, rfl, rfl⟩
    exact absurd hk (Nat.not_lt_zero k)
  | succ n ih =>
    obtain ⟨W, h⟩ := ih
    have hplace : twoSlots.place W.writeIndex = n % 2 := by
      rw [Config.place_eq, h.writeIndex]
      change n % 2 ^ 64 % 2 = n % 2
      omega
    have hbegin : (ring twoSlots).step W (.writer (.publish [7])) =
        some { W with writer := .enter ⟨W.writeIndex, [7]⟩ } := by
      simp only [ring_writer, State.stepWriter, h.writer]
      rfl
    refine ⟨_, h.reachable.leads (.step hbegin (State.publish_completes rfl ?_)), rfl, ?_,
      fun s => ?_, fun k hk hlate => ?_, h.handle⟩
    · dsimp only
      rw [h.owner]
      rfl
    · dsimp only
      rw [h.writeIndex, next_mod]
    · dsimp only
      by_cases hs : s = twoSlots.place W.writeIndex
      · rw [hs, State.slots_setSlot]
      · rw [State.slots_setSlot_of_ne hs]
        exact h.owner s
    · dsimp only
      rw [hplace]
      by_cases hlast : k = n
      · subst hlast
        rw [State.slots_setSlot, h.writeIndex, next_mod]
      · -- the call before is in the other slot
        rw [State.slots_setSlot_of_ne (by omega)]
        exact h.named k (by omega) (by omega)

/-- Of two readers, one is lapped; the other one then has the mutex of the slot that the first is
sent to. -/
def takenRun : List Action :=
  [.reader 1 .own, .reader 1 (.read 1), .reader 1 .next, .reader 0 (.read 1), .reader 0 .next]

/-- A third frame is published over the second, and the writer dies with `seq` stored and
`write_index` not. -/
def orphanedRun : List Action :=
  publishUnchecked [7] ++ publishUnchecked [8] ++ .writer (.publish [9]) ::
    (List.replicate 6 (.writer .next) ++ [.writer .kill, .reader 0 .own, .reader 0 (.read 1),
      .reader 0 .next, .reader 0 .next])

/-- The largest index is lapped by a ring with one frame, and sent back; `kEmpty` is returned where
another reader has the mutex; when `write_index` has come round, a reader is sent where it is; and
so it is when the writer has died between its stores to `seq` and `write_index`. -/
theorem lapping_limits :
    (∃ W, (ring (oneSlot false)).Reachable W ∧ W.calls.length = 1 ∧
      (W.handles 0).returns = [(2 ^ 64 - 1, .lapped 0)]) ∧
    (∃ W V, (ring (oneSlot false)).Reachable W ∧ W.writer = .idle ∧
      (W.handles 0).returns = [(0, .lapped 1)] ∧ (ring (oneSlot false)).Leads W V ∧
      V.writer = .idle ∧ V.calls.length = W.calls.length ∧
      (V.handles 0).returns = [(0, .lapped 1), (1, .empty)]) ∧
    (∃ W, (ring twoSlots).Reachable W ∧ (W.handles 0).returns = [(0, .lapped 0)]) ∧
    ∃ W, (ring (oneSlot false)).Reachable W ∧ W.writer = .dead ∧ W.calls.length = 3 ∧
      (W.handles 0).returns = [(1, .lapped 1)] := by
  refine ⟨?_, ?_, ?_, ?_⟩
  · have hfacts : ((ring (oneSlot false)).run (ring (oneSlot false)).start
        (publishUnchecked [7] ++ [.reader 0 .own, .reader 0 (.read (2 ^ 64 - 1)), .reader 0 .next,
          .reader 0 .next])).any (fun W => W.calls.length = 1 ∧
            (W.handles 0).returns = [(2 ^ 64 - 1, .lapped 0)]) = true := by decide +kernel
    obtain ⟨W, hrun, heq⟩ := (Option.any_eq_true _ _).mp hfacts
    exact ⟨W, ⟨_, hrun⟩, of_decide_eq_true heq⟩
  · have hfacts : ((ring (oneSlot false)).run (ring (oneSlot false)).start
        (lappedRun ++ [.reader 0 .next])).any (fun W => W.writer = .idle ∧ W.calls.length = 2 ∧
          (W.handles 0).returns = [(0, .lapped 1)] ∧
          ((ring (oneSlot false)).run W takenRun).any (fun V => V.writer = .idle ∧
            V.calls.length = 2 ∧ (V.handles 0).returns = [(0, .lapped 1), (1, .empty)]) = true) =
          true := by decide +kernel
    obtain ⟨W, hrun, heq⟩ := (Option.any_eq_true _ _).mp hfacts
    obtain ⟨hidle, hcalls, hreturns, hnext⟩ := of_decide_eq_true heq
    obtain ⟨V, hrun', heq'⟩ := (Option.any_eq_true _ _).mp hnext
    obtain ⟨hidle', hcalls', hreturns'⟩ := of_decide_eq_true heq'
    exact ⟨W, V, ⟨_, hrun⟩, hidle, hreturns, ⟨_, hrun'⟩, hidle', hcalls'.trans hcalls.symm,
      hreturns'⟩
  · obtain ⟨W, h⟩ := wound (2 ^ 64)
    obtain ⟨hpc, hreturns⟩ := h.handle
    have hplace : twoSlots.place 0 = (2 ^ 64 - 2) % 2 := by decide
    have hread := State.read_lapped twoSlots 0 hpc (by decide) (h.owner _) (by
      rw [hplace, h.named (2 ^ 64 - 2) (by decide) (by decide)]
      decide)
    refine ⟨_, h.reachable.leads hread, ?_⟩
    rw [State.handles_setHandle, Handle.return, hreturns, h.writeIndex]
    rfl
  · have hfacts : ((ring (oneSlot false)).run (ring (oneSlot false)).start orphanedRun).any
        (fun W => W.writer = .dead ∧ W.calls.length = 3 ∧
          (W.handles 0).returns = [(1, .lapped 1)]) = true := by decide +kernel
    obtain ⟨W, hrun, heq⟩ := (Option.any_eq_true _ _).mp hfacts
    exact ⟨W, ⟨_, hrun⟩, of_decide_eq_true heq⟩

end Shm
end PulseFanout
