import PulseFanout.Framework.Lists
import PulseFanout.Framework.Mutex
import PulseFanout.Shm.Progress

/-!
# What `read` returns

Whatever the interleaving, and wherever processes die, `read(index)` with `kOk` returns the
frame of the `publish` call number `index`, and never returns `kCorrupt` (`read_integrity`).
An index has 64 bits, and the two limits to this come from there (`index_ambiguous`): the
successor of the largest is zero, the `seq` of a slot that holds nothing; and after `2 ^ 64` calls
an index names more than one of them.

The invariant has three parts.

* `Exclusive`, for the slots' mutexes.
* `Filled` — a slot whose `seq` is not zero holds the call that `seq` names, complete. The
  writer sets `seq` to zero before it touches the rest, so this survives its death at any of
  the stages (`StageOk`).
* `HandleOk` — what a reader has copied, and what its calls have returned, is right.

`latest` says in addition that a published frame is still there unless a later call has
entered its slot. That is for the readers that are never lapped.
-/

namespace PulseFanout
namespace Shm

open Framework

/-! ### Mutual exclusion -/

/-- The slot whose mutex the writer holds. -/
def WriterPc.inside (cfg : Config) : WriterPc → Option ℕ
  | .within c _ => some (cfg.place c.idx)
  | _ => none

/-- The slot whose mutex a reader holds. -/
def ReaderPc.inside (cfg : Config) : ReaderPc → Option ℕ
  | .within index | .copied index _ | .stored index _ => some (cfg.place index)
  | _ => none

namespace State

variable (cfg : Config) (W : State)

/-- The slot whose mutex a party holds. -/
def inside : Party → Option ℕ
  | .writer => W.writer.inside cfg
  | .reader r => (W.handles r).pc.inside cfg

/-- The owner of a slot's mutex. -/
def owner (s : ℕ) : Option Party := (W.slots s).owner

variable {cfg W}

theorem inside_within {c : Call} {stage : Stage} (hpc : W.writer = .within c stage) :
    W.inside cfg .writer = some (cfg.place c.idx) := by
  change W.writer.inside cfg = _
  rw [hpc]
  rfl

/-- The dead are nowhere inside. -/
theorem inside_of_free {o : Option Party} (h : W.free o = true) {q : Party} (hq : o = some q) :
    W.inside cfg q = none := by
  subst hq
  change W.dead q = true at h
  cases q with
  | writer =>
    change W.writer.inside cfg = none
    rw [writer_of_dead h]
    rfl
  | reader r =>
    change (W.handles r).pc.inside cfg = none
    rw [reader_of_dead h]
    rfl

theorem inside_setHandle (r : ℕ) (h : Handle) :
    (W.setHandle r h).inside cfg (.reader r) = h.pc.inside cfg := by
  change ((W.setHandle r h).handles r).pc.inside cfg = _
  rw [handles_setHandle]

theorem inside_setHandle_of_ne {r : ℕ} {h : Handle} {q : Party} (hq : q ≠ .reader r) :
    (W.setHandle r h).inside cfg q = W.inside cfg q := by
  cases q with
  | writer => rfl
  | reader q =>
    have hne : q ≠ r := fun heq => hq (by rw [heq])
    change ((W.setHandle r h).handles q).pc.inside cfg = _
    rw [handles_setHandle_of_ne hne]
    rfl

end State

/-! ### The invariant -/

/-- What a slot holds: nothing, or the call its `seq` names. -/
def Filled (cfg : Config) (calls : List (List Byte)) (s : ℕ) (slot : Slot) : Prop :=
  slot.seq ≠ 0 → ∃ k frame, calls[k]? = some frame ∧ cfg.place (k % 2 ^ 64) = s ∧
    slot.seq = (k + 1) % 2 ^ 64 ∧ slot.frameLen = frame.length ∧
    bytes slot.frame slot.frameLen = frame

/-- The slot and `write_index` at each stage of a call. -/
def StageOk (c : Call) (slot : Slot) (writeIndex : ℕ) : Stage → Prop
  | .invalidate => writeIndex = c.idx
  | .clear => writeIndex = c.idx ∧ slot.seq = 0
  | .copy k => writeIndex = c.idx ∧ slot.seq = 0 ∧
    ∀ i < k, ∀ byte, c.frame[i]? = some byte → slot.frame i = byte
  | .stamp => writeIndex = c.idx ∧ slot.seq = 0 ∧ slot.frameLen = c.frame.length ∧
    bytes slot.frame slot.frameLen = c.frame
  | .advance => writeIndex = c.idx ∧ slot.seq = next c.idx
  | .leave => writeIndex = next c.idx

/-- A frame of a length `publish` takes. -/
def Sized (frame : List Byte) : Prop := 1 ≤ frame.length ∧ frame.length ≤ frameCap

/-- How the calls, `write_index` and the program counter go together. Of the number of a call
`write_index` has only 64 bits. -/
def WriterOk (cfg : Config) (W : State) : Prop :=
  match W.writer with
  | .idle => W.writeIndex = W.calls.length % 2 ^ 64
  | .pid c _ _ _ | .cursor c _ _ | .enter c =>
    W.writeIndex = W.calls.length % 2 ^ 64 ∧ c.idx = W.writeIndex ∧ Sized c.frame
  | .within c stage =>
    ∃ k, W.calls.length = k + 1 ∧ W.calls[k]? = some c.frame ∧ c.idx = k % 2 ^ 64 ∧
      StageOk c (W.slots (cfg.place c.idx)) W.writeIndex stage
  | .dead => ∃ k, W.writeIndex = k % 2 ^ 64 ∧ (W.calls.length = k ∨ W.calls.length = k + 1)

/-- A result of `read(index)`: if it is a frame, then the right one, and not `kCorrupt`. -/
def Sound (calls : List (List Byte)) (index : ℕ) (status : FrameStatus) : Prop :=
  index < 2 ^ 64 - 1 →
    match status with
    | .ok frame => ∃ k, calls[k]? = some frame ∧ k % 2 ^ 64 = index
    | .corrupt => False
    | .empty | .lapped _ => True

/-- The frame a reader has copied. -/
def ReaderPc.frame? : ReaderPc → Option (ℕ × List Byte)
  | .copied index frame | .stored index frame => some (index, frame)
  | _ => none

/-- What a reader has got is right. -/
structure HandleOk (calls : List (List Byte)) (h : Handle) : Prop where
  got : ∀ index frame, h.pc.frame? = some (index, frame) → Sound calls index (.ok frame)
  returns : ∀ index status, (index, status) ∈ h.returns → Sound calls index status

/-- What holds of the ring at every moment. -/
structure Inv (cfg : Config) (W : State) : Prop where
  exclusive : Exclusive W.owner (W.inside cfg)
  sized : ∀ frame ∈ W.calls, Sized frame
  filled : ∀ s, Filled cfg W.calls s (W.slots s)
  /-- A published frame is there unless a later call has entered its slot. -/
  latest : W.calls.length < 2 ^ 64 → ∀ k < W.writeIndex, W.calls.length ≤ k + cfg.slotCount →
    (W.slots (cfg.place k)).seq = k + 1
  writer : WriterOk cfg W
  handles : ∀ r, HandleOk W.calls (W.handles r)

variable {cfg : Config} {W W' : State}

/-! ### More calls -/

theorem Filled.concat {calls : List (List Byte)} {s : ℕ} {slot : Slot}
    (h : Filled cfg calls s slot) (frame : List Byte) : Filled cfg (calls ++ [frame]) s slot := by
  intro hseq
  obtain ⟨k, frame', hk, hrest⟩ := h hseq
  exact ⟨k, frame', getElem?_concat_of_some hk frame, hrest⟩

theorem Sound.concat {calls : List (List Byte)} {index : ℕ} {status : FrameStatus}
    (h : Sound calls index status) (frame : List Byte) :
    Sound (calls ++ [frame]) index status := by
  intro hindex
  have hsound := h hindex
  cases status with
  | ok frame' =>
    obtain ⟨k, hk, hindex⟩ := hsound
    exact ⟨k, getElem?_concat_of_some hk frame, hindex⟩
  | _ => exact hsound

theorem HandleOk.concat {calls : List (List Byte)} {h : Handle} (hok : HandleOk calls h)
    (frame : List Byte) : HandleOk (calls ++ [frame]) h :=
  ⟨fun index frame' hgot => (hok.got index frame' hgot).concat frame,
    fun index status hmem => (hok.returns index status hmem).concat frame⟩

/-- `read` returns something right. -/
theorem HandleOk.return {calls : List (List Byte)} {h : Handle} (hok : HandleOk calls h)
    {index : ℕ} {status : FrameStatus} (hsound : Sound calls index status) :
    HandleOk calls (h.return index status) := by
  refine ⟨nofun, fun i st hmem => ?_⟩
  rcases List.mem_append.mp hmem with hmem | hmem
  · exact hok.returns i st hmem
  · cases List.mem_singleton.mp hmem
    exact hsound

namespace Inv

/-! ### The writer -/

/-- A step of the writer's program counter alone, outside the mutex. -/
theorem writerPc (h : Inv cfg W) {pc : WriterPc} (hout : pc.inside cfg = none)
    (hok : WriterOk cfg { W with writer := pc }) : Inv cfg { W with writer := pc } where
  exclusive := h.exclusive.stay (fun _ => rfl) fun q => by
    cases q with
    | writer => exact Or.inr hout
    | reader r => exact Or.inl rfl
  sized := h.sized
  filled := h.filled
  latest := h.latest
  writer := hok
  handles := h.handles

/-- A call that has entered its slot has come to no other published frame. -/
theorem place_ne (h : Inv cfg W) {c : Call} {stage : Stage} (hpc : W.writer = .within c stage)
    (hbound : W.calls.length < 2 ^ 64) {k : ℕ} (hk : k < c.idx)
    (hlen : W.calls.length ≤ k + cfg.slotCount) : cfg.place k ≠ cfg.place c.idx := by
  have hwriter := h.writer
  rw [WriterOk, hpc] at hwriter
  obtain ⟨n, hcalls, -, hidx, -⟩ := hwriter
  intro hplace
  have hapart := cfg.add_le_of_place_eq hplace hk
  omega

/-- `publish` gets the slot's mutex. -/
theorem enter (h : Inv cfg W) {c : Call} (hpc : W.writer = .enter c)
    (hfree : W.free (W.slots (cfg.place c.idx)).owner = true) :
    Inv cfg { W.setOwner (cfg.place c.idx) (some .writer) with
      writer := .within c .invalidate
      calls := W.calls ++ [c.frame] } := by
  have hwriter := h.writer
  rw [WriterOk, hpc] at hwriter
  obtain ⟨hcalls, hidx, hsized⟩ := hwriter
  refine ⟨?_, ?_, fun s => ?_, fun hbound k hk hlen => ?_, ?_, fun r => (h.handles r).concat _⟩
  · refine h.exclusive.acquire (p := .writer) (fun q hq => State.inside_of_free hfree hq)
      (fun t ht => ?_) ?_ (fun q hq => ?_) rfl
    · rw [State.owner, State.slots_setOwner, if_neg ht]
      rfl
    · rw [State.owner, State.slots_setOwner, if_pos rfl]
    · cases q with
      | writer => exact absurd rfl hq
      | reader r => rfl
  · intro frame hmem
    rcases List.mem_append.mp hmem with hmem | hmem
    · exact h.sized frame hmem
    · rw [List.mem_singleton.mp hmem]
      exact hsized
  · rw [State.slots_setOwner]
    exact Filled.concat (h.filled s) c.frame
  · rw [State.slots_setOwner]
    rw [List.length_append] at hbound hlen
    exact h.latest (by omega) k hk (by omega)
  -- the call is recorded here, where its index is fixed
  · refine ⟨W.calls.length, ?_, List.getElem?_concat_length, hidx.trans hcalls, hidx.symm⟩
    rw [List.length_append, List.length_singleton]

/-- A stage that writes to the slot. -/
theorem stage (h : Inv cfg W) {c : Call} {st st' : Stage} {f : Slot → Slot}
    (hpc : W.writer = .within c st) (hindex : W.writeIndex = c.idx)
    (howner : (f (W.slots (cfg.place c.idx))).owner = (W.slots (cfg.place c.idx)).owner)
    (hfilled : Filled cfg W.calls (cfg.place c.idx) (f (W.slots (cfg.place c.idx))))
    (hstage : StageOk c (f (W.slots (cfg.place c.idx))) c.idx st') :
    Inv cfg { W.store cfg c.idx f with writer := .within c st' } := by
  have hwriter := h.writer
  rw [WriterOk, hpc] at hwriter
  obtain ⟨n, hcalls, hframe, hidx, -⟩ := hwriter
  refine ⟨?_, h.sized, fun s => ?_, fun hbound k hk hlen => ?_, ⟨n, hcalls, hframe, hidx, ?_⟩,
    h.handles⟩
  · refine h.exclusive.stay (fun s => ?_) fun q => Or.inl ?_
    · by_cases hs : s = cfg.place c.idx
      · subst hs
        rw [State.owner, State.store, State.slots_setSlot, howner]
        rfl
      · rw [State.owner, State.store, State.slots_setSlot_of_ne hs]
        rfl
    · cases q with
      | writer => exact (State.inside_within hpc).symm
      | reader r => rfl
  · by_cases hs : s = cfg.place c.idx
    · subst hs
      rw [State.store, State.slots_setSlot]
      exact hfilled
    · rw [State.store, State.slots_setSlot_of_ne hs]
      exact h.filled s
  -- a frame still in the ring is in another slot than the one written
  · have hk' : k < W.writeIndex := hk
    rw [State.store, State.slots_setSlot_of_ne (h.place_ne hpc hbound (hindex ▸ hk') hlen)]
    exact h.latest hbound k hk hlen
  · rw [State.store, State.slots_setSlot]
    change StageOk c _ W.writeIndex st'
    rw [hindex]
    exact hstage

/-- When every byte has been copied, the slot holds the frame. -/
theorem bytes_eq {frame : List Byte} {buffer : ℕ → Byte}
    (h : ∀ i byte, frame[i]? = some byte → buffer i = byte) :
    bytes buffer frame.length = frame := by
  refine List.ext_getElem ?_ fun i hi hi' => ?_
  · rw [bytes, List.length_map, List.length_range]
  · simp only [bytes, List.getElem_map, List.getElem_range]
    exact h i _ (List.getElem?_eq_getElem hi')

/-- `write_index` moves on. -/
theorem advance (h : Inv cfg W) {c : Call} (hpc : W.writer = .within c .advance) :
    Inv cfg { W with writeIndex := next c.idx, writer := .within c .leave } := by
  have hwriter := h.writer
  rw [WriterOk, hpc] at hwriter
  obtain ⟨n, hcalls, hframe, hidx, hindex, hseq⟩ := hwriter
  refine ⟨h.exclusive.stay (fun _ => rfl) fun q => Or.inl ?_, h.sized, h.filled,
    fun hbound k hk hlen => ?_, ⟨n, hcalls, hframe, hidx, rfl⟩, h.handles⟩
  · cases q with
    | writer => exact (State.inside_within hpc).symm
    | reader r => rfl
  · -- the new frame, or one that was there before
    have hbound' : W.calls.length < 2 ^ 64 := hbound
    have hnext : next c.idx = (n + 1) % 2 ^ 64 := by rw [hidx, next_mod]
    have hk' : k < next c.idx := hk
    have hcase : k < c.idx ∨ k = c.idx := by omega
    rcases hcase with hlt | rfl
    · exact h.latest hbound k (hindex ▸ hlt) hlen
    · change (W.slots (cfg.place c.idx)).seq = c.idx + 1
      omega

/-- The mutex is given back. -/
theorem leave (h : Inv cfg W) {c : Call} (hpc : W.writer = .within c .leave) :
    Inv cfg { W.setOwner (cfg.place c.idx) none with writer := .idle } := by
  have hwriter := h.writer
  rw [WriterOk, hpc] at hwriter
  obtain ⟨n, hcalls, hframe, hidx, hindex⟩ := hwriter
  refine ⟨h.exclusive.release (p := .writer) (State.inside_within hpc) (fun t ht => ?_)
    (fun q hq => ?_) rfl, h.sized, fun s => ?_, fun hbound k hk hlen => ?_, ?_, h.handles⟩
  · simp only [State.owner, State.slots_setOwner, if_neg ht]
  · cases q with
    | writer => exact absurd rfl hq
    | reader r => rfl
  · simp only [State.slots_setOwner]
    exact h.filled s
  · simp only [State.slots_setOwner]
    exact h.latest hbound k hk hlen
  · change W.writeIndex = W.calls.length % 2 ^ 64
    rw [hcalls, ← next_mod, ← hidx]
    exact hindex

/-- **The writer inside the mutex.** -/
theorem stepStage (h : Inv cfg W) {c : Call} {st : Stage} (hpc : W.writer = .within c st) :
    Inv cfg (W.stepStage cfg c st) := by
  have hwriter := h.writer
  rw [WriterOk, hpc] at hwriter
  obtain ⟨n, hcalls, hframe, hidx, hstage⟩ := hwriter
  cases st with
  | invalidate =>
    exact h.stage hpc hstage rfl (fun hseq => absurd rfl hseq) ⟨rfl, rfl⟩
  | clear =>
    obtain ⟨hindex, hseq⟩ := hstage
    exact h.stage hpc hindex rfl (fun hne => absurd hseq hne) ⟨rfl, hseq, fun i hi => by omega⟩
  | copy k =>
    obtain ⟨hindex, hseq, hcopied⟩ := hstage
    simp only [State.stepStage]
    split
    · -- byte `k`
      next byte hbyte =>
      refine h.stage hpc hindex rfl (fun hne => absurd hseq hne) ⟨rfl, hseq, fun i hi b hb => ?_⟩
      dsimp only
      rcases Nat.lt_succ_iff_lt_or_eq.mp hi with hlt | rfl
      · rw [Function.update_of_ne hlt.ne]
        exact hcopied i hlt b hb
      · rw [Function.update_self]
        exact Option.some.inj (hbyte.symm.trans hb)
    · -- all bytes are there, and `frame_len` is stored
      next hend =>
      refine h.stage hpc hindex rfl (fun hne => absurd hseq hne) ⟨rfl, hseq, rfl, ?_⟩
      refine bytes_eq fun i byte hbyte => hcopied i ?_ byte hbyte
      have hi := (List.getElem?_eq_some_iff.mp hbyte).1
      have hk := List.getElem?_eq_none_iff.mp hend
      omega
  | stamp =>
    obtain ⟨hindex, -, hlen, hbytes⟩ := hstage
    have hnext : next c.idx = (n + 1) % 2 ^ 64 := by rw [hidx, next_mod]
    refine h.stage hpc hindex rfl (fun _ => ⟨n, c.frame, hframe, ?_, hnext, hlen, hbytes⟩)
      ⟨rfl, rfl⟩
    rw [hidx]
  | advance => exact h.advance hpc
  | leave => exact h.leave hpc

/-- The calls are `write_index`, and one more while that one is under way. -/
theorem calls_length (h : Inv cfg W) :
    ∃ k, W.writeIndex = k % 2 ^ 64 ∧ (W.calls.length = k ∨ W.calls.length = k + 1) := by
  have hwriter := h.writer
  unfold WriterOk at hwriter
  split at hwriter
  · exact ⟨_, hwriter, Or.inl rfl⟩
  · exact ⟨_, hwriter.1, Or.inl rfl⟩
  · exact ⟨_, hwriter.1, Or.inl rfl⟩
  · exact ⟨_, hwriter.1, Or.inl rfl⟩
  · next c stage _ =>
    obtain ⟨n, hcalls, -, hidx, hstage⟩ := hwriter
    cases stage with
    | invalidate => exact ⟨n, hstage.trans hidx, Or.inr hcalls⟩
    | leave => exact ⟨n + 1, by rw [hstage, hidx, next_mod], Or.inl hcalls⟩
    | _ => exact ⟨n, hstage.1.trans hidx, Or.inr hcalls⟩
  · exact hwriter

/-- **The writer.** -/
theorem stepWriter (h : Inv cfg W) (hstep : WriterStep cfg W W') : Inv cfg W' := by
  have hwriter := h.writer
  unfold WriterOk at hwriter
  cases hstep with
  | refused => exact h
  | scan hpc hsized | begin hpc hsized =>
    rw [hpc] at hwriter
    exact h.writerPc rfl ⟨hwriter, rfl, hsized⟩
  -- the scan changes nothing but the program counter
  | vacant hpc | occupied hpc | compare hpc | pass hpc | rescan hpc =>
    rw [hpc] at hwriter
    exact h.writerPc rfl hwriter
  | enter hpc hfree => exact h.enter hpc hfree
  | stage hpc => exact h.stepStage hpc
  | giveUp hpc =>
    refine h.writerPc rfl ?_
    rcases hpc with ⟨i, any, blocked, hpc⟩ | hpc
    · rw [hpc] at hwriter
      exact hwriter.1
    · rw [hpc] at hwriter
      exact hwriter.1
  | kill => exact h.writerPc rfl h.calls_length

/-! ### The readers -/

/-- A step of one reader, which at most takes or gives back a mutex. -/
theorem reader (h : Inv cfg W) {r : ℕ}
    (hframe : W'.writer = W.writer ∧ W'.writeIndex = W.writeIndex ∧ W'.calls = W.calls ∧
      ∀ q, q ≠ r → W'.handles q = W.handles q)
    (hslots : ∀ s, ∃ owner, W'.slots s = { W.slots s with owner })
    (hexclusive : Exclusive W'.owner (W'.inside cfg))
    (hhandle : HandleOk W.calls (W'.handles r)) : Inv cfg W' := by
  obtain ⟨hwriter, hindex, hcalls, hothers⟩ := hframe
  refine ⟨hexclusive, hcalls ▸ h.sized, fun s => ?_, fun hbound k hk hlen => ?_, ?_, fun q => ?_⟩
  · obtain ⟨owner, hslot⟩ := hslots s
    rw [hcalls, hslot]
    exact h.filled s
  · obtain ⟨owner, hslot⟩ := hslots (cfg.place k)
    rw [hslot]
    rw [hcalls] at hbound hlen
    exact h.latest hbound k (hindex ▸ hk) hlen
  · have hok := h.writer
    unfold WriterOk at hok ⊢
    rw [hwriter, hcalls, hindex]
    cases hpc : W.writer with
    -- the writer's own claim on its slot does not mention the owner
    | within c stage =>
      rw [hpc] at hok
      obtain ⟨owner, hslot⟩ := hslots (cfg.place c.idx)
      dsimp only at hok ⊢
      rw [hslot]
      cases stage <;> exact hok
    | _ =>
      rw [hpc] at hok
      exact hok
  · rw [hcalls]
    by_cases hq : q = r
    · rw [hq]
      exact hhandle
    · rw [hothers q hq]
      exact h.handles q

/-- A step of one reader that leaves the slots alone. -/
theorem readerPc (h : Inv cfg W) {r : ℕ}
    (hframe : W'.writer = W.writer ∧ W'.writeIndex = W.writeIndex ∧ W'.calls = W.calls ∧
      ∀ q, q ≠ r → W'.handles q = W.handles q) (hslots : W'.slots = W.slots)
    (hinside : (W'.handles r).pc.inside cfg = (W.handles r).pc.inside cfg ∨
      (W'.handles r).pc.inside cfg = none)
    (hhandle : HandleOk W.calls (W'.handles r)) : Inv cfg W' := by
  refine h.reader hframe (fun s => ⟨_, congrFun hslots s⟩) ?_ hhandle
  obtain ⟨hwriter, -, -, hothers⟩ := hframe
  refine h.exclusive.stay (fun s => by rw [State.owner, hslots]; rfl) fun q => ?_
  cases q with
  | writer =>
    left
    change W'.writer.inside cfg = W.writer.inside cfg
    rw [hwriter]
  | reader q =>
    by_cases hq : q = r
    · rw [hq]
      exact hinside
    · left
      change (W'.handles q).pc.inside cfg = (W.handles q).pc.inside cfg
      rw [hothers q hq]

/-- A step of one reader outside of `read`, or at its beginning. -/
theorem outside (h : Inv cfg W) {r : ℕ} {hd : Handle} (hstep : ReaderStep cfg W r W')
    (hslots : W'.slots = W.slots) (hhandles : W'.handles = Function.update W.handles r hd)
    (hinside : hd.pc.inside cfg = none) (hframe : hd.pc.frame? = none)
    (hreturns : hd.returns = (W.handles r).returns) : Inv cfg W' := by
  have hself : W'.handles r = hd := by rw [hhandles, Function.update_self]
  refine h.readerPc (State.stepReader_frame hstep) hslots (Or.inr ?_) ?_
  · rw [hself]
    exact hinside
  · rw [hself]
    refine ⟨fun index frame hgot => ?_, hreturns ▸ (h.handles r).returns⟩
    rw [hframe] at hgot
    cases hgot

/-- `read` returns, and its mutex is given back. -/
theorem released (h : Inv cfg W) {r index : ℕ} {status : FrameStatus}
    (hinside : (W.handles r).pc.inside cfg = some (cfg.place index))
    (hsound : Sound W.calls index status) : Inv cfg (W.released cfg r index status) := by
  refine h.reader (r := r) ⟨rfl, rfl, rfl, fun q hq => State.handles_setHandle_of_ne hq _⟩
    (fun s => ⟨_, State.slots_setOwner _ _ s⟩) ?_ ?_
  · refine h.exclusive.release (p := .reader r) hinside (fun t ht => ?_) (fun q hq => ?_) ?_
    · change ((W.setOwner _ _).slots t).owner = _
      rw [State.slots_setOwner, if_neg ht]
      rfl
    · exact State.inside_setHandle_of_ne hq
    · exact State.inside_setHandle _ _
  · unfold State.released
    rw [State.handles_setHandle]
    exact (h.handles r).return hsound

/-- When `seq` is the one an index asks for, the slot holds the frame of that number. -/
theorem hit (h : Inv cfg W) {index : ℕ} (hindex : index < 2 ^ 64 - 1)
    (hlow : ¬ (W.slots (cfg.place index)).seq < next index)
    (hhigh : ¬ (W.slots (cfg.place index)).seq > next index) :
    ∃ k frame, (W.calls[k]? = some frame ∧ k % 2 ^ 64 = index) ∧
      ¬ ((W.slots (cfg.place index)).frameLen = 0 ∨
        (W.slots (cfg.place index)).frameLen > frameCap) ∧
      bytes (W.slots (cfg.place index)).frame (W.slots (cfg.place index)).frameLen = frame := by
  have hnext : next index = index + 1 := Nat.mod_eq_of_lt (by omega)
  obtain ⟨k, frame, hk, -, hseq, hlen, hbytes⟩ := h.filled (cfg.place index) (by omega)
  obtain ⟨hpos, hcap⟩ := h.sized frame (List.mem_of_getElem? hk)
  exact ⟨k, frame, ⟨hk, by omega⟩, by omega, hbytes⟩

/-- `read` with the mutex. -/
theorem check (h : Inv cfg W) {r index : ℕ} (hpc : (W.handles r).pc = .within index) :
    Inv cfg (W.check cfg r index) := by
  have hinside : (W.handles r).pc.inside cfg = some (cfg.place index) := by rw [hpc]; rfl
  unfold State.check
  dsimp only
  split
  · refine h.released hinside ?_
    exact fun _ => trivial
  · next hlow =>
    split
    · refine h.released hinside ?_
      exact fun _ => trivial
    · next hhigh =>
      split
      · next hbad =>
        refine h.released hinside fun hindex => ?_
        -- a slot with the right `seq` was written by a call, so its length is good
        obtain ⟨-, -, -, hgood, -⟩ := h.hit hindex hlow hhigh
        exact hgood hbad
      · refine h.readerPc (r := r)
          ⟨rfl, rfl, rfl, fun q hq => State.handles_setHandle_of_ne hq _⟩ rfl (Or.inl ?_) ?_
        · rw [State.handles_setHandle, hinside]
          rfl
        · rw [State.handles_setHandle]
          refine ⟨fun i frame hgot hindex => ?_, (h.handles r).returns⟩
          cases hgot
          obtain ⟨k, frame, hk, -, hbytes⟩ := h.hit hindex hlow hhigh
          rw [hbytes]
          exact ⟨k, hk⟩

/-- **A reader.** -/
theorem stepReader (h : Inv cfg W) {r : ℕ} (hstep : ReaderStep cfg W r W') : Inv cfg W' := by
  have hframe := State.stepReader_frame hstep
  cases hstep with
  | enter hpc hfree =>
    refine h.reader hframe (fun s => ⟨_, State.slots_setOwner _ _ s⟩) ?_ ?_
    · refine h.exclusive.acquire (p := .reader r) (fun q hq => State.inside_of_free hfree hq)
        (fun t ht => ?_) ?_ (fun q hq => State.inside_setHandle_of_ne hq)
        (State.inside_setHandle _ _)
      · change ((W.setOwner _ _).slots t).owner = _
        rw [State.slots_setOwner, if_neg ht]
        rfl
      · change ((W.setOwner _ _).slots _).owner = _
        rw [State.slots_setOwner, if_pos rfl]
    · rw [State.handles_setHandle]
      exact ⟨nofun, (h.handles r).returns⟩
  | busy hpc =>
    refine h.readerPc hframe rfl (Or.inr ?_) ?_
    · rw [State.handles_setHandle]
      rfl
    · rw [State.handles_setHandle]
      exact (h.handles r).return fun _ => trivial
  | check hpc => exact h.check hpc
  | store hpc hreader | skip hpc hreader =>
    -- the frame stays the same
    have hgot := (h.handles r).got
    rw [hpc] at hgot
    refine h.readerPc hframe rfl (Or.inl ?_) ?_
    · rw [State.handles_setHandle, hpc]
      rfl
    · rw [State.handles_setHandle]
      exact ⟨hgot, (h.handles r).returns⟩
  | finish hpc =>
    refine h.released (by rw [hpc]; rfl) ((h.handles r).got _ _ ?_)
    rw [hpc]
    rfl
  | attach hpc hfree => exact h.outside (.attach hpc hfree) rfl rfl rfl rfl rfl
  | own hpc => exact h.outside (.own hpc) rfl rfl rfl rfl rfl
  | found hpc hi hpid => exact h.outside (.found hpc hi hpid) rfl rfl rfl rfl rfl
  | taken hpc => exact h.outside (.taken hpc) rfl rfl rfl rfl rfl
  | full hpc => exact h.outside (.full hpc) rfl rfl rfl rfl rfl
  | reset hpc => exact h.outside (.reset hpc) rfl rfl rfl rfl rfl
  | claim hpc hpid => exact h.outside (.claim hpc hpid) rfl rfl rfl rfl rfl
  | leave hpc => exact h.outside (.leave hpc) rfl rfl rfl rfl rfl
  | read hpc => exact h.outside (.read hpc) rfl rfl rfl rfl rfl
  | detach hpc hreader => exact h.outside (.detach hpc hreader) rfl rfl rfl rfl rfl
  | drop hpc hreader => exact h.outside (.drop hpc hreader) rfl rfl rfl rfl rfl
  | kill => exact h.outside .kill rfl rfl rfl rfl rfl

/-! ### Runs -/

theorem start : Inv cfg (ring cfg).start where
  exclusive := fun p s hp => by cases p <;> cases hp
  sized := fun _ hmem => absurd hmem List.not_mem_nil
  filled := fun _ hseq => absurd rfl hseq
  latest := fun _ k hk => absurd hk (Nat.not_lt_zero k)
  writer := rfl
  handles := fun _ => ⟨nofun, fun _ _ hmem => absurd hmem List.not_mem_nil⟩

/-- **Every run.** -/
theorem reachable (h : (ring cfg).Reachable W) : Inv cfg W := by
  refine h.invariant start ?_
  intro W a W' hinv hstep
  cases a with
  | writer a => exact hinv.stepWriter (State.stepWriter_cases hstep)
  | reader r a => exact hinv.stepReader (State.stepReader_cases hstep)

end Inv

/-- **Read integrity.** For every ring and either policy, whatever the interleaving and wherever
processes die: of the calls of `read` with an index below the largest, none returns `kCorrupt`,
and those that return `kOk` return the frame of a `publish` call whose number has these 64 bits,
which is the call of that number itself until `write_index` has come round. -/
theorem read_integrity (h : (ring cfg).Reachable W) {r index : ℕ} {status : FrameStatus}
    (hmem : (index, status) ∈ (W.handles r).returns) (hindex : index < 2 ^ 64 - 1) :
    status ≠ .corrupt ∧ ∀ frame, status = .ok frame →
      ∃ k, W.calls[k]? = some frame ∧ k % 2 ^ 64 = index ∧
        (W.calls.length ≤ 2 ^ 64 → k = index) := by
  have hsound := ((Inv.reachable h).handles r).returns index status hmem hindex
  refine ⟨?_, ?_⟩
  · rintro rfl
    exact hsound
  · rintro frame rfl
    obtain ⟨k, hk, hbits⟩ := hsound
    have hlt := (List.getElem?_eq_some_iff.mp hk).1
    exact ⟨k, hk, hbits, fun hfew => by omega⟩

/-- A ring of one slot. -/
def oneSlot (backpressure : Bool) : Config where
  slotCount := 1
  power := rfl
  small := by decide
  backpressure

/-- Reader `0` attaches to a ring without other readers. -/
def attachFirst : List Action :=
  [.reader 0 .attach, .reader 0 .next, .reader 0 .next, .reader 0 (.claim 9), .reader 0 .next]

/-- The writer publishes `frame` without looking at the readers. -/
def publishUnchecked (frame : List Byte) : List Action :=
  .writer (.publish frame) :: List.replicate (frame.length + 7) (.writer .next)

/-- Reader `0` reads, with the mutex free. -/
def readOne (index : ℕ) : List Action :=
  .reader 0 (.read index) :: List.replicate 4 (.reader 0 .next)

/-- Two frames, of which the first is overwritten, and the writer dies while it writes a third
one. -/
def overwriteRun : List Action :=
  attachFirst ++ publishUnchecked [7, 7] ++ readOne 0 ++ publishUnchecked [8] ++
    readOne 1 ++
    [.writer (.publish [9, 9, 9]), .writer .next, .writer .next, .writer .next, .writer .next,
      .writer .next, .writer .kill, .reader 0 (.read 2), .reader 0 .next, .reader 0 .next]

theorem overwritten_slot_read :
    ∃ W, (ring (oneSlot false)).run (ring (oneSlot false)).start overwriteRun = some W ∧
      (W.handles 0).returns = [(0, .ok [7, 7]), (1, .ok [8]), (2, .empty)] ∧
      W.calls[1]? = some [8] := by
  have hfacts : ((ring (oneSlot false)).run (ring (oneSlot false)).start overwriteRun).map
      (fun W => ((W.handles 0).returns, W.calls.length)) =
        some ([(0, .ok [7, 7]), (1, .ok [8]), (2, .empty)], 3) := by decide +kernel
  obtain ⟨W, hrun, heq⟩ := Option.map_eq_some_iff.mp hfacts
  injection heq with hreturns hlength
  have hmem : (1, .ok [8]) ∈ (W.handles 0).returns := by
    rw [hreturns]
    decide
  obtain ⟨k, hk, -, hnumber⟩ := (read_integrity ⟨_, hrun⟩ hmem (by decide)).2 [8] rfl
  rw [hnumber (by rw [hlength]; decide)] at hk
  exact ⟨W, hrun, hreturns, hk⟩

theorem oneSlot_place (backpressure : Bool) (idx : ℕ) : (oneSlot backpressure).place idx = 0 := by
  rw [Config.place_eq]
  exact Nat.mod_one idx

/-- A ring of one slot after `n + 1` calls, with a reader that has not read: the first frame was
`7`, the others are `8`. -/
structure Overwritten (n : ℕ) (W : State) : Prop where
  reachable : (ring (oneSlot false)).Reachable W
  writer : W.writer = .idle
  writeIndex : W.writeIndex = (n + 1) % 2 ^ 64
  calls : W.calls[0]? = some [7]
  slot : (W.slots 0).owner = none ∧ (W.slots 0).seq = (n + 1) % 2 ^ 64 ∧ (W.slots 0).frameLen = 1
  frame : 1 ≤ n → (W.slots 0).frame 0 = 8
  handle : (W.handles 0).pc = .idle ∧ (W.handles 0).reader = some 0 ∧ (W.handles 0).returns = []

theorem overwritten (n : ℕ) : ∃ W, Overwritten n W := by
  induction n with
  | zero =>
    have hfacts : ((ring (oneSlot false)).run (ring (oneSlot false)).start
        (attachFirst ++ publishUnchecked [7])).any (fun W => W.writer = .idle ∧
          W.writeIndex = 1 ∧ W.calls[0]? = some [7] ∧
          ((W.slots 0).owner = none ∧ (W.slots 0).seq = 1 ∧ (W.slots 0).frameLen = 1) ∧
          (W.handles 0).pc = .idle ∧ (W.handles 0).reader = some 0 ∧
          (W.handles 0).returns = []) = true := by decide +kernel
    obtain ⟨W, hrun, heq⟩ := (Option.any_eq_true _ _).mp hfacts
    obtain ⟨hwriter, hindex, hcalls, hslot, hhandle⟩ := of_decide_eq_true heq
    exact ⟨W, ⟨_, hrun⟩, hwriter, hindex, hcalls, hslot,
      fun hn => absurd hn (Nat.not_succ_le_zero 0), hhandle⟩
  | succ n ih =>
    obtain ⟨W, h⟩ := ih
    -- one more call; the slot is free, so it runs through
    have hbegin : (ring (oneSlot false)).step W (.writer (.publish [8])) =
        some { W with writer := .enter ⟨W.writeIndex, [8]⟩ } := by
      simp only [ring_writer, State.stepWriter, h.writer]
      rfl
    have hfree : (W.slots ((oneSlot false).place W.writeIndex)).owner = none := by
      rw [oneSlot_place]
      exact h.slot.1
    refine ⟨_, h.reachable.leads (.step hbegin (State.publish_completes rfl ?_)), rfl, ?_, ?_, ?_,
      fun _ => ?_, h.handle⟩
    · dsimp only
      rw [hfree]
      rfl
    · dsimp only
      rw [h.writeIndex, next_mod]
    · exact getElem?_concat_of_some h.calls [8]
    · dsimp only
      rw [oneSlot_place, State.slots_setSlot, h.writeIndex, next_mod]
      exact ⟨rfl, rfl, rfl⟩
    · dsimp only
      rw [oneSlot_place, State.slots_setSlot]
      rfl

/-- The largest index asks for the `seq` of a slot that holds nothing; and when `write_index` has
come round, an index names more than one call. -/
theorem index_ambiguous :
    (∃ W, (ring (oneSlot true)).Reachable W ∧ W.calls = [] ∧
      (W.handles 0).returns = [(2 ^ 64 - 1, .corrupt)]) ∧
    ∃ W, (ring (oneSlot false)).Reachable W ∧ W.calls[0]? = some [7] ∧
      (W.handles 0).returns = [(0, .ok [8])] := by
  constructor
  · have hfacts : ((ring (oneSlot true)).run (ring (oneSlot true)).start
        (attachFirst ++ [.reader 0 (.read (2 ^ 64 - 1)), .reader 0 .next, .reader 0 .next])).map
          (fun W => (W.calls, (W.handles 0).returns)) = some ([], [(2 ^ 64 - 1, .corrupt)]) := by
      decide +kernel
    obtain ⟨W, hrun, heq⟩ := Option.map_eq_some_iff.mp hfacts
    injection heq with hcalls hreturns
    exact ⟨W, ⟨_, hrun⟩, hcalls, hreturns⟩
  · obtain ⟨W, h⟩ := overwritten (2 ^ 64)
    obtain ⟨hpc, hreader, hreturns⟩ := h.handle
    obtain ⟨howner, hseq, hlen⟩ := h.slot
    have hframe := h.frame (by decide)
    refine ⟨_, h.reachable.leads (State.read_completes _ 0 hpc hreader (by decide)
      ?_ ?_ ?_), h.calls, ?_⟩
    · rw [oneSlot_place]; exact howner
    · rw [oneSlot_place]; exact hseq
    · rw [oneSlot_place, hlen]
      decide
    · rw [State.handles_setHandle, Handle.return, hreturns, oneSlot_place, hlen]
      change [(0, FrameStatus.ok [(W.slots 0).frame 0])] = _
      rw [hframe]

end Shm
end PulseFanout
