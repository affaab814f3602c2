import Mathlib.Data.Nat.ModEq
import Mathlib.Logic.Function.Basic
import PulseFanout.Framework.Machine
import PulseFanout.Wire.Frame

/-!
# The shared-memory ring (`shm_ring.h`)

One process creates the ring and publishes into it; others attach to it and read. Every slot has
a mutex, which is held while the slot is written or read, and the ring has another for the
registration of readers. The mutexes are robust: that of a process that has died is free.

The writer and every reader are program counters, with one step for each access to the memory
they share, in program order: the writer's test of the readers loads `pid` and `cursor` one
after the other, and its copy of a frame goes byte by byte. A process can die at any of its
steps (`kill`). Within a slot's mutex a reader reads that slot, which nobody changes meanwhile,
and nothing else but, when it is lapped, `write_index` once; so the test of `seq` with the copy, or
with that load, is one step. Deadlines are choices of the action (`giveUp`).

The 64-bit counters `write_index`, `seq` and `cursor` wrap as in the source; `next` is the
increment.

Three fields are history and read by no step: `calls`, the frames of the `publish` calls that
came as far as the slot, `returns`, what the calls of `read` of a handle have returned, and
`early`, which says how far the writer was when a reader had attached.
-/

namespace PulseFanout
namespace Shm

open Framework

/-! ### Layout -/

/-- `kFrameCap`, which is `msg::kMaxFrame`. -/
def frameCap : ℕ := Msg.kMaxFrame

example : frameCap = 576 := by decide

/-- `kMaxReaders`. -/
def maxReaders : ℕ := 64

/-- `util::is_power_of_two`. -/
def isPowerOfTwo (value : ℕ) : Bool := value != 0 && value &&& (value - 1) == 0

/-- The increment of a 64-bit counter. -/
def next (n : ℕ) : ℕ := (n + 1) % 2 ^ 64

theorem next_mod (n : ℕ) : next (n % 2 ^ 64) = (n + 1) % 2 ^ 64 := Nat.mod_add_mod n (2 ^ 64) 1

/-- What `attach` fixes when it creates a ring. -/
structure Config where
  slotCount : ℕ
  power : isPowerOfTwo slotCount = true
  small : slotCount < 2 ^ 32
  backpressure : Bool

namespace Config

variable (cfg : Config)

/-- `idx & mask_`. -/
def place (idx : ℕ) : ℕ := idx &&& (cfg.slotCount - 1)

theorem slotCount_pos : 0 < cfg.slotCount := by
  have hpower := cfg.power
  simp only [isPowerOfTwo, Bool.and_eq_true, bne_iff_ne] at hpower
  exact Nat.pos_of_ne_zero hpower.1

/-- The mask takes the remainder. -/
theorem place_eq (idx : ℕ) : cfg.place idx = idx % cfg.slotCount := by
  have hpower := cfg.power
  simp only [isPowerOfTwo, Bool.and_eq_true, bne_iff_ne, beq_iff_eq] at hpower
  obtain ⟨k, hk⟩ := (Nat.and_sub_one_eq_zero_iff_isPowerOfTwo hpower.1).mp hpower.2
  rw [place, hk, Nat.and_two_pow_sub_one_eq_mod]

/-- Two calls that share a slot are a whole ring apart. -/
theorem add_le_of_place_eq {i j : ℕ} (h : cfg.place i = cfg.place j) (hlt : i < j) :
    i + cfg.slotCount ≤ j := by
  rw [place_eq, place_eq] at h
  exact Nat.ModEq.add_le_of_lt h hlt

theorem le_of_place_eq {i j : ℕ} (h : cfg.place i = cfg.place j) (hlt : i < j + cfg.slotCount) :
    i ≤ j := by
  rw [place_eq, place_eq] at h
  exact Nat.ModEq.le_of_lt_add h hlt

end Config

/-! ### Shared memory -/

/-- Who holds a slot's mutex. -/
inductive Party
  | writer
  | reader (r : ℕ)
deriving DecidableEq

/-- A slot. -/
structure Slot where
  /-- The owner of the mutex. -/
  owner : Option Party := none
  seq : ℕ := 0
  frameLen : ℕ := 0
  /-- The bytes, by offset. -/
  frame : ℕ → Byte := fun _ => 0

/-- The first `len` bytes at `frame`. -/
def bytes (frame : ℕ → Byte) (len : ℕ) : List Byte := (List.range len).map frame

/-- An entry of the reader table. -/
structure ReaderState where
  pid : ℕ := 0
  cursor : ℕ := 0

/-! ### The writer -/

/-- A call of `publish` after its checks: the index it has read and the frame. -/
structure Call where
  idx : ℕ
  frame : List Byte
deriving DecidableEq

/-- Where `publish` is inside the slot's mutex. -/
inductive Stage
  /-- At `slot.seq=0`. -/
  | invalidate
  /-- At `slot.frame_len=0`. -/
  | clear
  /-- In `memcpy`, with `k` bytes copied; at its end, at `slot.frame_len=len`. -/
  | copy (k : ℕ)
  /-- At `slot.seq=idx+1`. -/
  | stamp
  /-- At `write_index.store`. -/
  | advance
  /-- At the end, with the mutex still held. -/
  | leave
deriving DecidableEq

/-- Where `publish` is. -/
inductive WriterPc
  | idle
  /-- About to load the `pid` of reader `i`. -/
  | pid (c : Call) (i : ℕ) (any blocked : Bool)
  /-- That was not zero, and its `cursor` is loaded next. -/
  | cursor (c : Call) (i : ℕ) (blocked : Bool)
  /-- At the slot's mutex. -/
  | enter (c : Call)
  | within (c : Call) (stage : Stage)
  | dead
deriving DecidableEq

/-- The call under way. -/
def WriterPc.call? : WriterPc → Option Call
  | .idle | .dead => none
  | .pid c _ _ _ | .cursor c _ _ | .enter c | .within c _ => some c

/-- Steps of the writer. -/
inductive WriterAction
  /-- A call, up to the first access after the load of `live_edge`. -/
  | publish (frame : List Byte)
  | next
  /-- A deadline has passed and the call throws. -/
  | giveUp
  | kill

/-! ### Readers -/

/-- What `read` returns. -/
inductive FrameStatus
  | ok (frame : List Byte)
  | empty
  | lapped (resume : ℕ)
  | corrupt
deriving DecidableEq

/-- Where a reader is. -/
inductive ReaderPc
  | new
  /-- In `attach`, with the registry's mutex; about to load the `pid` of entry `i`. -/
  | probe (i : ℕ)
  /-- That was zero; at `cursor.store(0)`. -/
  | reset (i : ℕ)
  /-- At `pid.store`. -/
  | claim (i : ℕ)
  /-- At the end, with the mutex still held. -/
  | leave (i : ℕ)
  | idle
  /-- In `read`, at the slot's mutex. -/
  | enter (index : ℕ)
  /-- In `read`, with the mutex. -/
  | within (index : ℕ)
  /-- The frame is copied; at `cursor.store`. -/
  | copied (index : ℕ) (frame : List Byte)
  /-- At the end of `read`, with the mutex still held. -/
  | stored (index : ℕ) (frame : List Byte)
  /-- Destroyed, or `attach` has thrown. -/
  | gone
  | dead
deriving DecidableEq

/-- The index of the call of `read` under way. -/
def ReaderPc.index? : ReaderPc → Option ℕ
  | .enter index | .within index | .copied index _ | .stored index _ => some index
  | _ => none

/-- A `Ring` object that reads. -/
structure Handle where
  pc : ReaderPc := .new
  /-- `reader_`. -/
  reader : Option ℕ := none
  /-- History: the calls of `read`, with their results. -/
  returns : List (ℕ × FrameStatus) := []
  /-- History: `attach` was complete before the writer began to look at the readers for the
  call with the number `slot_count`. -/
  early : Bool := false

/-- `read` returns. -/
def Handle.return (h : Handle) (index : ℕ) (status : FrameStatus) : Handle :=
  { h with pc := .idle, returns := h.returns ++ [(index, status)] }

/-- Steps of a reader. -/
inductive ReaderAction
  | attach
  /-- The creator reads from its own ring; `reader_` is negative. -/
  | own
  /-- `pid.store`. -/
  | claim (pid : ℕ)
  | read (index : ℕ)
  | next
  | detach
  | kill

/-! ### The system -/

structure State where
  slots : ℕ → Slot := fun _ => {}
  readers : ℕ → ReaderState := fun _ => {}
  /-- The owner of the registry's mutex. -/
  registry : Option ℕ := none
  writeIndex : ℕ := 0
  writer : WriterPc := .idle
  handles : ℕ → Handle := fun _ => {}
  /-- History: the frames of the `publish` calls that came as far as the slot. -/
  calls : List (List Byte) := []

namespace State

variable (cfg : Config) (W : State)

def dead : Party → Bool
  | .writer => match W.writer with
    | .dead => true
    | _ => false
  | .reader r => match (W.handles r).pc with
    | .dead => true
    | _ => false

/-- `pthread_mutex_trylock` succeeds: nobody holds the mutex, or its owner is dead. -/
def free (owner : Option Party) : Bool := owner.all W.dead

theorem writer_of_dead {W : State} (h : W.dead .writer = true) : W.writer = .dead := by
  simp only [dead] at h
  split at h
  · next hpc => exact hpc
  · cases h

theorem reader_of_dead {W : State} {r : ℕ} (h : W.dead (.reader r) = true) :
    (W.handles r).pc = .dead := by
  simp only [dead] at h
  split at h
  · next hpc => exact hpc
  · cases h

def setSlot (s : ℕ) (slot : Slot) : State := { W with slots := Function.update W.slots s slot }

/-- The slot's mutex is taken or given back. -/
def setOwner (s : ℕ) (owner : Option Party) : State := W.setSlot s { W.slots s with owner }

def setReader (i : ℕ) (state : ReaderState) : State :=
  { W with readers := Function.update W.readers i state }

def setHandle (r : ℕ) (h : Handle) : State :=
  { W with handles := Function.update W.handles r h }

section Set

variable {W}

@[simp] theorem slots_setSlot (s : ℕ) (slot : Slot) : (W.setSlot s slot).slots s = slot :=
  Function.update_self ..

theorem slots_setSlot_of_ne {s t : ℕ} (h : t ≠ s) (slot : Slot) :
    (W.setSlot s slot).slots t = W.slots t :=
  Function.update_of_ne h ..

theorem slots_setOwner (s : ℕ) (owner : Option Party) (t : ℕ) :
    (W.setOwner s owner).slots t =
      { W.slots t with owner := if t = s then owner else (W.slots t).owner } := by
  unfold setOwner
  by_cases h : t = s
  · subst h
    rw [slots_setSlot, if_pos rfl]
  · rw [slots_setSlot_of_ne h, if_neg h]

@[simp] theorem readers_setReader (i : ℕ) (state : ReaderState) :
    (W.setReader i state).readers i = state :=
  Function.update_self ..

theorem readers_setReader_of_ne {i j : ℕ} (h : j ≠ i) (state : ReaderState) :
    (W.setReader i state).readers j = W.readers j :=
  Function.update_of_ne h ..

@[simp] theorem handles_setHandle (r : ℕ) (h : Handle) : (W.setHandle r h).handles r = h :=
  Function.update_self ..

theorem handles_setHandle_of_ne {r q : ℕ} (hne : q ≠ r) (h : Handle) :
    (W.setHandle r h).handles q = W.handles q :=
  Function.update_of_ne hne ..

end Set

/-- A store to the slot of `idx`. -/
def store (idx : ℕ) (f : Slot → Slot) : State :=
  W.setSlot (cfg.place idx) (f (W.slots (cfg.place idx)))

/-- One step of `publish` inside the slot's mutex. -/
def stepStage (c : Call) : Stage → State
  | .invalidate =>
    { W.store cfg c.idx fun slot => { slot with seq := 0 } with writer := .within c .clear }
  | .clear =>
    { W.store cfg c.idx fun slot => { slot with frameLen := 0 } with writer := .within c (.copy 0) }
  | .copy k =>
    match c.frame[k]? with
    | some byte =>
      { W.store cfg c.idx fun slot => { slot with frame := Function.update slot.frame k byte } with
        writer := .within c (.copy (k + 1)) }
    | none =>
      { W.store cfg c.idx fun slot => { slot with frameLen := c.frame.length } with
        writer := .within c .stamp }
  | .stamp =>
    { W.store cfg c.idx fun slot => { slot with seq := next c.idx } with
      writer := .within c .advance }
  | .advance => { W with writeIndex := next c.idx, writer := .within c .leave }
  | .leave => { W.setOwner (cfg.place c.idx) none with writer := .idle }

/-- One step of the writer. -/
def stepWriter : WriterAction → Option State
  | .publish frame =>
    match W.writer with
    | .idle =>
      if 1 ≤ frame.length ∧ frame.length ≤ frameCap then
        some { W with
          writer :=
            if cfg.backpressure ∧ cfg.slotCount ≤ W.writeIndex then
              .pid ⟨W.writeIndex, frame⟩ 0 false false
            else .enter ⟨W.writeIndex, frame⟩ }
      -- `std::length_error`
      else some W
    | _ => none
  | .next =>
    match W.writer with
    | .idle | .dead => none
    | .pid c i any blocked =>
      if i < maxReaders then
        if (W.readers i).pid = 0 then some { W with writer := .pid c (i + 1) any blocked }
        else some { W with writer := .cursor c i blocked }
      else if any ∧ ¬ blocked then some { W with writer := .enter c }
      -- once more
      else some { W with writer := .pid c 0 false false }
    | .cursor c i blocked =>
      some { W with
        writer := .pid c (i + 1) true
          (blocked || decide ((W.readers i).cursor ≤ c.idx - cfg.slotCount)) }
    | .enter c =>
      let s := cfg.place c.idx
      if W.free (W.slots s).owner then
        some { W.setOwner s (some .writer) with
          writer := .within c .invalidate
          calls := W.calls ++ [c.frame] }
      else none
    | .within c stage => some (W.stepStage cfg c stage)
  | .giveUp =>
    match W.writer with
    | .pid _ i any blocked =>
      if maxReaders ≤ i ∧ ¬ (any ∧ ¬ blocked) then some { W with writer := .idle } else none
    | .enter c =>
      if W.free (W.slots (cfg.place c.idx)).owner then none else some { W with writer := .idle }
    | _ => none
  | .kill => some { W with writer := .dead }

/-- The slot's mutex is released and `read` returns. -/
def released (r index : ℕ) (status : FrameStatus) : State :=
  (W.setOwner (cfg.place index) none).setHandle r ((W.handles r).return index status)

/-- `read` with the slot's mutex held. -/
def check (r index : ℕ) : State :=
  let slot := W.slots (cfg.place index)
  if slot.seq < next index then W.released cfg r index .empty
  else if slot.seq > next index then
    W.released cfg r index
      (.lapped (if W.writeIndex > cfg.slotCount then W.writeIndex - cfg.slotCount else 0))
  else if slot.frameLen = 0 ∨ slot.frameLen > frameCap then W.released cfg r index .corrupt
  else W.setHandle r { W.handles r with pc := .copied index (bytes slot.frame slot.frameLen) }

/-- The writer has not yet begun to look at the readers for the call with the number
`slot_count`. -/
def beforeScan : Bool :=
  decide (W.calls.length ≤ cfg.slotCount) &&
    match W.writer.call? with
    | some c => decide (c.idx < cfg.slotCount)
    | none => true

/-- One step of reader `r`. -/
def stepReader (r : ℕ) : ReaderAction → Option State
  | .attach =>
    match (W.handles r).pc with
    | .new =>
      if W.free (W.registry.map .reader) then
        some { W.setHandle r { W.handles r with pc := .probe 0 } with registry := some r }
      else none
    | _ => none
  | .own =>
    match (W.handles r).pc with
    | .new => some (W.setHandle r { W.handles r with pc := .idle })
    | _ => none
  | .claim pid =>
    match (W.handles r).pc with
    | .claim i =>
      if pid = 0 then none
      else
        some ((W.setReader i { W.readers i with pid }).setHandle r
          { W.handles r with pc := .leave i, reader := some i })
    | _ => none
  | .read index =>
    match (W.handles r).pc with
    | .idle =>
      if index < 2 ^ 64 then some (W.setHandle r { W.handles r with pc := .enter index }) else none
    | _ => none
  | .next =>
    match (W.handles r).pc with
    | .probe i =>
      if i < maxReaders then
        if (W.readers i).pid = 0 then some (W.setHandle r { W.handles r with pc := .reset i })
        else some (W.setHandle r { W.handles r with pc := .probe (i + 1) })
      -- the reader limit is exceeded
      else some { W.setHandle r { W.handles r with pc := .gone } with registry := none }
    | .reset i =>
      some ((W.setReader i { W.readers i with cursor := 0 }).setHandle r
        { W.handles r with pc := .claim i })
    | .leave _ =>
      some { W.setHandle r { W.handles r with pc := .idle, early := W.beforeScan cfg } with
        registry := none }
    | .enter index =>
      let s := cfg.place index
      if W.free (W.slots s).owner then
        some ((W.setOwner s (some (.reader r))).setHandle r
          { W.handles r with pc := .within index })
      else some (W.setHandle r ((W.handles r).return index .empty))
    | .within index => some (W.check cfg r index)
    | .copied index frame =>
      let W' := match (W.handles r).reader with
        | some i => W.setReader i { W.readers i with cursor := next index }
        | none => W
      some (W'.setHandle r { W.handles r with pc := .stored index frame })
    | .stored index frame => some (W.released cfg r index (.ok frame))
    | _ => none
  | .detach =>
    match (W.handles r).pc with
    | .idle =>
      let W' := match (W.handles r).reader with
        | some i => W.setReader i { W.readers i with pid := 0 }
        | none => W
      some (W'.setHandle r { W.handles r with pc := .gone, reader := none })
    | _ => none
  | .kill => some (W.setHandle r { W.handles r with pc := .dead })

end State

/-! ### The steps, one by one

Proofs about the writer and the readers go by cases on these. -/

/-- What a step of the writer can be. -/
inductive WriterStep (cfg : Config) (W : State) : State → Prop
  /-- A call that has to look at the readers first. -/
  | scan {frame : List Byte} (hpc : W.writer = .idle)
    (hsized : 1 ≤ frame.length ∧ frame.length ≤ frameCap) :
    WriterStep cfg W { W with writer := .pid ⟨W.writeIndex, frame⟩ 0 false false }
  /-- One that has not: without backpressure, or while the ring is not full. -/
  | begin {frame : List Byte} (hpc : W.writer = .idle)
    (hsized : 1 ≤ frame.length ∧ frame.length ≤ frameCap)
    (hroom : ¬ (cfg.backpressure = true ∧ cfg.slotCount ≤ W.writeIndex)) :
    WriterStep cfg W { W with writer := .enter ⟨W.writeIndex, frame⟩ }
  | refused : WriterStep cfg W W
  | vacant {c : Call} {i : ℕ} {any blocked : Bool} (hpc : W.writer = .pid c i any blocked)
    (hpid : (W.readers i).pid = 0) :
    WriterStep cfg W { W with writer := .pid c (i + 1) any blocked }
  | occupied {c : Call} {i : ℕ} {any blocked : Bool} (hpc : W.writer = .pid c i any blocked) :
    WriterStep cfg W { W with writer := .cursor c i blocked }
  | compare {c : Call} {i : ℕ} {blocked : Bool} (hpc : W.writer = .cursor c i blocked) :
    WriterStep cfg W { W with
      writer := .pid c (i + 1) true
        (blocked || decide ((W.readers i).cursor ≤ c.idx - cfg.slotCount)) }
  /-- All entries have been passed, and no reader is in the way. -/
  | pass {c : Call} {i : ℕ} {any blocked : Bool} (hpc : W.writer = .pid c i any blocked)
    (hend : maxReaders ≤ i) (hclear : blocked = false) :
    WriterStep cfg W { W with writer := .enter c }
  | rescan {c : Call} {i : ℕ} {any blocked : Bool} (hpc : W.writer = .pid c i any blocked) :
    WriterStep cfg W { W with writer := .pid c 0 false false }
  | enter {c : Call} (hpc : W.writer = .enter c)
    (hfree : W.free (W.slots (cfg.place c.idx)).owner = true) :
    WriterStep cfg W { W.setOwner (cfg.place c.idx) (some .writer) with
      writer := .within c .invalidate
      calls := W.calls ++ [c.frame] }
  | stage {c : Call} {stage : Stage} (hpc : W.writer = .within c stage) :
    WriterStep cfg W (W.stepStage cfg c stage)
  /-- The deadline has passed, with readers in the way or with the mutex taken. -/
  | giveUp {c : Call}
    (hpc : (∃ i any blocked, W.writer = .pid c i any blocked) ∨ W.writer = .enter c) :
    WriterStep cfg W { W with writer := .idle }
  | kill : WriterStep cfg W { W with writer := .dead }

theorem State.stepWriter_cases {cfg : Config} {W W' : State} {a : WriterAction}
    (h : W.stepWriter cfg a = some W') : WriterStep cfg W W' := by
  cases a with
  | publish frame =>
    simp only [stepWriter] at h
    split at h
    · next hpc =>
      split at h
      · next hsized =>
        cases h
        split
        · exact .scan hpc hsized
        · next hroom => exact .begin hpc hsized hroom
      · cases h; exact .refused
    · cases h
  | next =>
    simp only [stepWriter] at h
    split at h
    · cases h
    · cases h
    · next hpc =>
      split at h
      · split at h
        · next hpid => cases h; exact .vacant hpc hpid
        · cases h; exact .occupied hpc
      · next hend =>
        split at h
        · next hpass =>
          cases h
          exact .pass hpc (not_lt.mp hend) (Bool.eq_false_of_not_eq_true hpass.2)
        · cases h; exact .rescan hpc
    · next hpc => cases h; exact .compare hpc
    · next hpc =>
      split at h
      · next hfree => cases h; exact .enter hpc hfree
      · cases h
    · next hpc => cases h; exact .stage hpc
  | giveUp =>
    simp only [stepWriter] at h
    split at h
    · next hpc =>
      split at h
      · cases h; exact .giveUp (Or.inl ⟨_, _, _, hpc⟩)
      · cases h
    · next hpc =>
      split at h
      · cases h
      · cases h; exact .giveUp (Or.inr hpc)
    · cases h
  | kill =>
    cases h
    exact .kill

/-- What a step of reader `r` can be. -/
inductive ReaderStep (cfg : Config) (W : State) (r : ℕ) : State → Prop
  | attach (hpc : (W.handles r).pc = .new) (hfree : W.free (W.registry.map .reader) = true) :
    ReaderStep cfg W r { W.setHandle r { W.handles r with pc := .probe 0 } with registry := some r }
  | own (hpc : (W.handles r).pc = .new) :
    ReaderStep cfg W r (W.setHandle r { W.handles r with pc := .idle })
  | found {i : ℕ} (hpc : (W.handles r).pc = .probe i) (hi : i < maxReaders)
    (hpid : (W.readers i).pid = 0) :
    ReaderStep cfg W r (W.setHandle r { W.handles r with pc := .reset i })
  | taken {i : ℕ} (hpc : (W.handles r).pc = .probe i) :
    ReaderStep cfg W r (W.setHandle r { W.handles r with pc := .probe (i + 1) })
  | full {i : ℕ} (hpc : (W.handles r).pc = .probe i) :
    ReaderStep cfg W r { W.setHandle r { W.handles r with pc := .gone } with registry := none }
  | reset {i : ℕ} (hpc : (W.handles r).pc = .reset i) :
    ReaderStep cfg W r ((W.setReader i { W.readers i with cursor := 0 }).setHandle r
      { W.handles r with pc := .claim i })
  | claim {i pid : ℕ} (hpc : (W.handles r).pc = .claim i) (hpid : pid ≠ 0) :
    ReaderStep cfg W r ((W.setReader i { W.readers i with pid }).setHandle r
      { W.handles r with pc := .leave i, reader := some i })
  | leave {i : ℕ} (hpc : (W.handles r).pc = .leave i) :
    ReaderStep cfg W r
      { W.setHandle r { W.handles r with pc := .idle, early := W.beforeScan cfg } with
        registry := none }
  | read {index : ℕ} (hpc : (W.handles r).pc = .idle) :
    ReaderStep cfg W r (W.setHandle r { W.handles r with pc := .enter index })
  | enter {index : ℕ} (hpc : (W.handles r).pc = .enter index)
    (hfree : W.free (W.slots (cfg.place index)).owner = true) :
    ReaderStep cfg W r ((W.setOwner (cfg.place index) (some (.reader r))).setHandle r
      { W.handles r with pc := .within index })
  | busy {index : ℕ} (hpc : (W.handles r).pc = .enter index) :
    ReaderStep cfg W r (W.setHandle r ((W.handles r).return index .empty))
  | check {index : ℕ} (hpc : (W.handles r).pc = .within index) :
    ReaderStep cfg W r (W.check cfg r index)
  | store {index i : ℕ} {frame : List Byte} (hpc : (W.handles r).pc = .copied index frame)
    (hreader : (W.handles r).reader = some i) :
    ReaderStep cfg W r ((W.setReader i { W.readers i with cursor := next index }).setHandle r
      { W.handles r with pc := .stored index frame })
  | skip {index : ℕ} {frame : List Byte} (hpc : (W.handles r).pc = .copied index frame)
    (hreader : (W.handles r).reader = none) :
    ReaderStep cfg W r (W.setHandle r { W.handles r with pc := .stored index frame })
  | finish {index : ℕ} {frame : List Byte} (hpc : (W.handles r).pc = .stored index frame) :
    ReaderStep cfg W r (W.released cfg r index (.ok frame))
  | detach {i : ℕ} (hpc : (W.handles r).pc = .idle) (hreader : (W.handles r).reader = some i) :
    ReaderStep cfg W r ((W.setReader i { W.readers i with pid := 0 }).setHandle r
      { W.handles r with pc := .gone, reader := none })
  | drop (hpc : (W.handles r).pc = .idle) (hreader : (W.handles r).reader = none) :
    ReaderStep cfg W r (W.setHandle r { W.handles r with pc := .gone, reader := none })
  | kill : ReaderStep cfg W r (W.setHandle r { W.handles r with pc := .dead })

theorem State.stepReader_cases {cfg : Config} {W W' : State} {r : ℕ} {a : ReaderAction}
    (h : W.stepReader cfg r a = some W') : ReaderStep cfg W r W' := by
  cases a with
  | attach =>
    simp only [stepReader] at h
    split at h
    · next hpc =>
      split at h
      · next hfree => cases h; exact .attach hpc hfree
      · cases h
    · cases h
  | own =>
    simp only [stepReader] at h
    split at h
    · next hpc => cases h; exact .own hpc
    · cases h
  | claim pid =>
    simp only [stepReader] at h
    split at h
    · next hpc =>
      split at h
      · cases h
      · next hpid => cases h; exact .claim hpc hpid
    · cases h
  | read index =>
    simp only [stepReader] at h
    split at h
    · next hpc =>
      split at h
      · cases h; exact .read hpc
      · cases h
    · cases h
  | next =>
    simp only [stepReader] at h
    split at h
    · next hpc =>
      split at h
      · next hi =>
        split at h
        · next hpid => cases h; exact .found hpc hi hpid
        · cases h; exact .taken hpc
      · cases h; exact .full hpc
    · next hpc => cases h; exact .reset hpc
    · next hpc => cases h; exact .leave hpc
    · next hpc =>
      split at h
      · next hfree => cases h; exact .enter hpc hfree
      · cases h; exact .busy hpc
    · next hpc => cases h; exact .check hpc
    · next hpc =>
      cases h
      split
      · next hreader => exact .store hpc hreader
      · next hreader => exact .skip hpc hreader
    · next hpc => cases h; exact .finish hpc
    · cases h
  | detach =>
    simp only [stepReader] at h
    split at h
    · next hpc =>
      cases h
      split
      · next hreader => exact .detach hpc hreader
      · next hreader => exact .drop hpc hreader
    · cases h
  | kill =>
    cases h
    exact .kill

/-! ### What a step leaves alone -/

namespace State

variable {cfg : Config} {W W' : State}

/-- The stages of the writer touch slots, `write_index` and the program counter. -/
theorem stepStage_frame (cfg : Config) (W : State) (c : Call) (stage : Stage) :
    (W.stepStage cfg c stage).readers = W.readers ∧
      (W.stepStage cfg c stage).handles = W.handles ∧
      (W.stepStage cfg c stage).registry = W.registry ∧
      (W.stepStage cfg c stage).calls = W.calls := by
  cases stage with
  | copy k =>
    simp only [stepStage]
    split <;> exact ⟨rfl, rfl, rfl, rfl⟩
  | _ => exact ⟨rfl, rfl, rfl, rfl⟩

/-- The writer leaves the readers alone, and only adds calls. -/
theorem stepWriter_frame (h : WriterStep cfg W W') :
    W'.readers = W.readers ∧ W'.handles = W.handles ∧ W'.registry = W.registry ∧
      W.calls <+: W'.calls := by
  cases h with
  | enter => exact ⟨rfl, rfl, rfl, List.prefix_append _ _⟩
  | @stage c stage =>
    obtain ⟨hreaders, hhandles, hregistry, hcalls⟩ := stepStage_frame cfg W c stage
    exact ⟨hreaders, hhandles, hregistry, hcalls ▸ List.prefix_rfl⟩
  | _ => exact ⟨rfl, rfl, rfl, List.prefix_rfl⟩

/-- A reader leaves the writer, what was published and the other readers alone. -/
theorem stepReader_frame {r : ℕ} (h : ReaderStep cfg W r W') :
    W'.writer = W.writer ∧ W'.writeIndex = W.writeIndex ∧ W'.calls = W.calls ∧
      ∀ q, q ≠ r → W'.handles q = W.handles q := by
  cases h with
  | check hpc =>
    unfold check
    dsimp only
    repeat' split
    all_goals exact ⟨rfl, rfl, rfl, fun q hq => handles_setHandle_of_ne hq _⟩
  | _ => exact ⟨rfl, rfl, rfl, fun q hq => handles_setHandle_of_ne hq _⟩

end State

/-- What can happen. -/
inductive Action
  | writer (a : WriterAction)
  | reader (r : ℕ) (a : ReaderAction)

/-- A new ring, its writer and any number of readers. -/
def ring (cfg : Config) : Machine State Action where
  start := {}
  step W
    | .writer a => W.stepWriter cfg a
    | .reader r a => W.stepReader cfg r a

@[simp] theorem ring_writer (cfg : Config) (W : State) (a : WriterAction) :
    (ring cfg).step W (.writer a) = W.stepWriter cfg a := rfl

@[simp] theorem ring_reader (cfg : Config) (W : State) (r : ℕ) (a : ReaderAction) :
    (ring cfg).step W (.reader r a) = W.stepReader cfg r a := rfl

end Shm
end PulseFanout
