import PulseFanout.Shm.Ring

/-!
# Calls that nothing holds up

What `publish` and `read` do when they run to their end. `publish` passes its look at the readers
when there is one and all of them are less than a ring behind (`scan_passes`), and then, with the
slot's mutex free, puts the frame into the slot and moves `write_index` (`publish_completes`).
`read` returns the frame and stores the cursor when the slot holds what the index asks for
(`read_completes`), and `kLapped` when it holds something later (`read_lapped`).
-/

namespace PulseFanout
namespace Shm

open Framework

variable {cfg : Config} {W : State}

/-! ### The writer -/

/-- `publish` in the middle of its slot. -/
def State.writing (cfg : Config) (W : State) (c : Call) (slot : Slot) (stage : Stage) : State :=
  { W.setSlot (cfg.place c.idx) slot with
    writer := .within c stage
    calls := W.calls ++ [c.frame] }

/-- The bytes of a buffer after the first `k` of a frame have been copied over it. -/
def overlay (buffer : ℕ → Byte) (frame : List Byte) (k : ℕ) : ℕ → Byte :=
  fun i => if i < k then frame.getD i 0 else buffer i

theorem update_overlay (buffer : ℕ → Byte) {frame : List Byte} {k : ℕ} {byte : Byte}
    (h : frame[k]? = some byte) :
    Function.update (overlay buffer frame k) k byte = overlay buffer frame (k + 1) := by
  funext i
  unfold overlay
  by_cases hi : i = k
  · subst hi
    rw [Function.update_self, if_pos (Nat.lt_succ_self i), List.getD_eq_getElem?_getD, h]
    rfl
  · rw [Function.update_of_ne hi]
    by_cases hlt : i < k
    · rw [if_pos hlt, if_pos (Nat.lt_succ_of_lt hlt)]
    · rw [if_neg hlt, if_neg (by omega)]

namespace State

/-- One store. -/
theorem store_writing (c : Call) (slot : Slot) (stage stage' : Stage) (f : Slot → Slot) :
    { (W.writing cfg c slot stage).store cfg c.idx f with writer := .within c stage' } =
      W.writing cfg c (f slot) stage' := by
  unfold writing store setSlot
  dsimp only
  rw [Function.update_self, Function.update_idem]

/-- One step inside the slot. -/
theorem step_writing {c : Call} {slot : Slot} (stage stage' : Stage) (f : Slot → Slot)
    (h : (W.writing cfg c slot stage).stepStage cfg c stage =
      { (W.writing cfg c slot stage).store cfg c.idx f with writer := .within c stage' }) :
    (ring cfg).step (W.writing cfg c slot stage) (.writer .next) =
      some (W.writing cfg c (f slot) stage') := by
  change some (stepStage cfg _ c stage) = _
  rw [h, store_writing]

/-- **The copy.** -/
theorem copy_leads (c : Call) (slot : Slot) (buffer : ℕ → Byte) {k m : ℕ}
    (hk : k + m = c.frame.length) :
    (ring cfg).Leads
      (W.writing cfg c { slot with frame := overlay buffer c.frame k } (.copy k))
      (W.writing cfg c { slot with frame := overlay buffer c.frame c.frame.length }
        (.copy c.frame.length)) := by
  induction m generalizing k with
  | zero =>
    rw [Nat.add_zero] at hk
    rw [hk]
    exact Machine.Leads.refl _
  | succ m ih =>
    obtain ⟨byte, hbyte⟩ : ∃ byte, c.frame[k]? = some byte :=
      ⟨_, List.getElem?_eq_getElem (by omega)⟩
    refine Machine.Leads.step (a := .writer .next) ?_ (ih (k := k + 1) (by omega))
    change some (stepStage cfg _ c (.copy k)) = _
    simp only [stepStage, hbyte]
    rw [store_writing, update_overlay buffer hbyte]

/-- **`publish` completes** when the slot's mutex is free. -/
theorem publish_completes {c : Call} (hpc : W.writer = .enter c)
    (hfree : W.free (W.slots (cfg.place c.idx)).owner = true) :
    (ring cfg).Leads W
      { W.setSlot (cfg.place c.idx)
          { owner := none
            seq := next c.idx
            frameLen := c.frame.length
            frame := overlay (W.slots (cfg.place c.idx)).frame c.frame c.frame.length } with
        writeIndex := next c.idx
        writer := .idle
        calls := W.calls ++ [c.frame] } := by
  have henter : (ring cfg).step W (.writer .next) =
      some (W.writing cfg c { W.slots (cfg.place c.idx) with owner := some .writer }
        .invalidate) := by
    rw [ring_writer]
    simp only [stepWriter, hpc, hfree, if_true]
    rfl
  -- up to the first byte
  refine .step henter ?_
  refine .step (step_writing .invalidate .clear (fun slot => { slot with seq := 0 }) rfl) ?_
  refine .step (step_writing .clear (.copy 0) (fun slot => { slot with frameLen := 0 }) rfl) ?_
  refine .trans (copy_leads c { W.slots (cfg.place c.idx) with
    owner := some .writer, seq := 0, frameLen := 0 } _ (Nat.zero_add _)) ?_
  -- after the last one
  have hend : c.frame[c.frame.length]? = none := List.getElem?_eq_none le_rfl
  refine .step (step_writing (.copy _) .stamp
    (fun slot => { slot with frameLen := c.frame.length }) (by simp only [stepStage, hend])) ?_
  refine .step (step_writing .stamp .advance (fun slot => { slot with seq := next c.idx }) rfl) ?_
  -- `write_index` and the end
  refine .step (a := .writer .next) rfl (.step (a := .writer .next) rfl ?_)
  simp only [stepStage, writing, setOwner, setSlot, Function.update_self, Function.update_idem]
  exact Machine.Leads.refl _

/-- **The look at the readers passes** when there is one and all are less than a ring behind. -/
theorem scan_passes (c : Call)
    (hahead : ∀ i < maxReaders, (W.readers i).pid ≠ 0 →
      c.idx - cfg.slotCount < (W.readers i).cursor)
    (hany : ∃ i < maxReaders, (W.readers i).pid ≠ 0) :
    (ring cfg).Leads { W with writer := .pid c 0 false false } { W with writer := .enter c } := by
  -- entry by entry; `any` says whether there was a reader among those passed
  suffices hloop : ∀ m j any, j + m = maxReaders →
      (any = true ∨ ∃ i, j ≤ i ∧ i < maxReaders ∧ (W.readers i).pid ≠ 0) →
      (ring cfg).Leads { W with writer := .pid c j any false } { W with writer := .enter c } by
    obtain ⟨i, hi, hpid⟩ := hany
    exact hloop maxReaders 0 false (Nat.zero_add _) (Or.inr ⟨i, Nat.zero_le i, hi, hpid⟩)
  intro m
  induction m with
  | zero =>
    intro j any hj hsome
    have hany : any = true := by
      rcases hsome with hany | ⟨i, hji, hi, -⟩
      · exact hany
      · omega
    refine .step (a := .writer .next) (t := { W with writer := .enter c }) ?_ (.refl _)
    rw [ring_writer]
    simp only [stepWriter, if_neg (show ¬ j < maxReaders by omega), hany]
    rfl
  | succ m ih =>
    intro j any hj hsome
    have hlt : j < maxReaders := by omega
    by_cases hpid : (W.readers j).pid = 0
    · refine .step (a := .writer .next) (t := { W with writer := .pid c (j + 1) any false }) ?_
        (ih (j + 1) any (by omega) ?_)
      · rw [ring_writer]
        simp only [stepWriter, if_pos hlt, if_pos hpid]
      · rcases hsome with hany | ⟨i, hji, hi, hpid'⟩
        · exact Or.inl hany
        · have hne : i ≠ j := by
            rintro rfl
            exact hpid' hpid
          exact Or.inr ⟨i, by omega, hi, hpid'⟩
    · refine .step (a := .writer .next) (t := { W with writer := .cursor c j false }) ?_
        (.step (a := .writer .next) (t := { W with writer := .pid c (j + 1) true false }) ?_
          (ih (j + 1) true (by omega) (Or.inl rfl)))
      · rw [ring_writer]
        simp only [stepWriter, if_pos hlt, if_neg hpid]
      · rw [ring_writer]
        have hcursor := hahead j hlt hpid
        simp only [stepWriter, Bool.false_or, decide_eq_false (not_le.mpr hcursor)]

/-! ### A reader -/

/-- A reader in the middle of a slot. -/
def reading (cfg : Config) (W : State) (r index : ℕ) (pc : ReaderPc) : State :=
  (W.setOwner (cfg.place index) (some (.reader r))).setHandle r { W.handles r with pc }

/-- `read` gets a mutex that nobody holds. -/
theorem read_enters {r index : ℕ} {S : State} (hpc : (W.handles r).pc = .idle)
    (hindex : index < 2 ^ 64) (howner : (W.slots (cfg.place index)).owner = none)
    (hrest : (ring cfg).Leads (W.reading cfg r index (.within index)) S) :
    (ring cfg).Leads W S := by
  refine .step (a := .reader r (.read index))
    (t := W.setHandle r { W.handles r with pc := .enter index }) ?_
    (.step (a := .reader r .next) (t := W.reading cfg r index (.within index)) ?_ hrest)
  · rw [ring_reader]
    simp only [stepReader, hpc, if_pos hindex]
  · rw [ring_reader]
    have hfree : (W.setHandle r { W.handles r with pc := .enter index }).free
        ((W.setHandle r { W.handles r with pc := .enter index }).slots
          (cfg.place index)).owner = true := by
      change (W.setHandle r _).free (W.slots (cfg.place index)).owner = true
      rw [howner]
      rfl
    simp only [stepReader, handles_setHandle, hfree, if_true]
    simp only [reading, setOwner, setSlot, setHandle, Function.update_idem]

@[simp] theorem handles_reading (r index : ℕ) (pc : ReaderPc) :
    (W.reading cfg r index pc).handles r = { W.handles r with pc } :=
  handles_setHandle r _

@[simp] theorem slots_reading (r index : ℕ) (pc : ReaderPc) :
    (W.reading cfg r index pc).slots (cfg.place index) =
      { W.slots (cfg.place index) with owner := some (.reader r) } := by
  change (W.setOwner _ _).slots _ = _
  rw [slots_setOwner, if_pos rfl]

/-- The test of the slot. -/
theorem step_reading (r index : ℕ) :
    (ring cfg).step (W.reading cfg r index (.within index)) (.reader r .next) =
      some ((W.reading cfg r index (.within index)).check cfg r index) := by
  simp only [ring_reader, stepReader, handles_reading]

/-- **`read` returns the frame** when the slot holds it. -/
theorem read_completes (cfg : Config) {r i : ℕ} (index : ℕ) (hpc : (W.handles r).pc = .idle)
    (hreader : (W.handles r).reader = some i) (hindex : index < 2 ^ 64)
    (howner : (W.slots (cfg.place index)).owner = none)
    (hseq : (W.slots (cfg.place index)).seq = next index)
    (hlen : 1 ≤ (W.slots (cfg.place index)).frameLen ∧
      (W.slots (cfg.place index)).frameLen ≤ frameCap) :
    (ring cfg).Leads W
      (((W.setOwner (cfg.place index) none).setReader i
        { W.readers i with cursor := next index }).setHandle r
          ((W.handles r).return index (.ok (bytes (W.slots (cfg.place index)).frame
            (W.slots (cfg.place index)).frameLen)))) := by
  have hcheck : (W.reading cfg r index (.within index)).check cfg r index =
      W.reading cfg r index (.copied index
        (bytes (W.slots (cfg.place index)).frame (W.slots (cfg.place index)).frameLen)) := by
    unfold check
    simp only [slots_reading, handles_reading, hseq]
    rw [if_neg (lt_irrefl _), if_neg (lt_irrefl _), if_neg (by omega)]
    simp only [reading, setHandle, Function.update_idem]
  refine read_enters hpc hindex howner (.step (step_reading r index) ?_)
  rw [hcheck]
  generalize bytes (W.slots (cfg.place index)).frame (W.slots (cfg.place index)).frameLen = frame
  -- the cursor, and the end
  refine .step (a := .reader r .next) (t := (W.setReader i
    { W.readers i with cursor := next index }).reading cfg r index (.stored index frame)) ?_
    (.step (a := .reader r .next) ?_ (.refl _))
  · simp only [ring_reader, stepReader, handles_reading, hreader]
    simp only [reading, setOwner, setSlot, setReader, setHandle, Function.update_idem, hreader]
  · simp only [ring_reader, stepReader, handles_reading, released, Handle.return]
    simp only [reading, setOwner, setSlot, setReader, setHandle, Function.update_idem,
      Function.update_self]

/-- **`read` is lapped** when the slot holds something later. -/
theorem read_lapped (cfg : Config) {r : ℕ} (index : ℕ) (hpc : (W.handles r).pc = .idle)
    (hindex : index < 2 ^ 64)
    (howner : (W.slots (cfg.place index)).owner = none)
    (hseq : (W.slots (cfg.place index)).seq > next index) :
    (ring cfg).Leads W ((W.setOwner (cfg.place index) none).setHandle r
      ((W.handles r).return index
        (.lapped (if W.writeIndex > cfg.slotCount then W.writeIndex - cfg.slotCount else 0)))) := by
  refine read_enters hpc hindex howner (.step (step_reading r index) ?_)
  unfold check
  simp only [slots_reading]
  rw [if_neg (by omega), if_pos hseq]
  simp only [released, handles_reading, Handle.return]
  simp only [reading, setOwner, setSlot, setHandle, Function.update_idem, Function.update_self]
  exact .refl _

end State

end Shm
end PulseFanout
