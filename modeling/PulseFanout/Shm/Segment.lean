import Mathlib.Logic.Function.Basic
import PulseFanout.Framework.FileLock
import PulseFanout.Framework.Machine

/-!
# Creating and opening a segment (`shm_segment.h`)

A ring lives in a shared-memory object that one process creates and others open by its name.
Between `shm_open` and the end of `Ring::attach` the object is there but not usable: it has no
size, then its bytes are zero, then some of the mutexes are made. The creator holds the exclusive
lock of the file during this time, from before `ftruncate` to `ready`, and whoever opens the object
takes the shared lock and looks at the size before it maps anything.

`System` has any number of processes that use the same name. Each is a creator with a number of
slots (`Segment::open` with `create`, `Ring::attach` with `init`, `ready`, and in the end
`unlink`), an attacher with the number of slots it expects (`Segment::open`, `Ring::attach`), or
`wait_ring` of `run_pipeline.py`. Each is a program counter with one step for every system call and
for every store of `attach`. `fail` is an exception, a deadline that has passed or a request to
stop, and `kill` ends a process at any step: its locks are gone, the name and the memory stay.

`Inode.ready` and `Inode.abandoned` are history: the creator has called `ready`, or it has failed or
died before.
-/

namespace PulseFanout
namespace Shm
namespace Segment

open Framework

/-! ### Memory -/

/-- `kMagic`. -/
def kMagic : BitVec 32 := 0x53484d31

/-- The sizes of `Header` and `Slot`, which depend on the platform's mutex. -/
structure Layout where
  header : ℕ
  slot : ℕ
  header_pos : 0 < header
  slot_pos : 0 < slot

/-- `region_size`. -/
def Layout.regionSize (L : Layout) (slots : ℕ) : ℕ := L.header + slots * L.slot

/-- What `attach` writes. -/
structure Memory where
  magic : BitVec 32 := 0
  layoutVersion : BitVec 32 := 0
  slotCount : ℕ := 0
  slotSize : ℕ := 0
  /-- `registry_mutex` is initialized. -/
  registry : Bool := false
  /-- The slots that are constructed, with their mutexes. -/
  slots : ℕ := 0
deriving DecidableEq

/-- The number of stores of `attach` with `init`. -/
def fillLength (slots : ℕ) : ℕ := 6 + slots

/-- Store number `k` of `attach` with `init`. -/
def Memory.fill (L : Layout) (slots : ℕ) (m : Memory) : ℕ → Memory
  -- `new(header_) Header{}`
  | 0 => { slots := m.slots }
  | 1 => { m with magic := kMagic }
  | 2 => { m with layoutVersion := 3 }
  | 3 => { m with slotCount := slots }
  | 4 => { m with slotSize := L.slot }
  -- `init_mutex(header_->registry_mutex)`
  | 5 => { m with registry := true }
  | k + 6 => { m with slots := k + 1 }

/-- All of it. -/
def Memory.complete (L : Layout) (slots : ℕ) : Memory :=
  { magic := kMagic, layoutVersion := 3, slotCount := slots, slotSize := L.slot, registry := true,
    slots }

/-- What the first `k` stores leave. -/
def Memory.filled (L : Layout) (slots k : ℕ) : Memory :=
  (List.range k).foldl (Memory.fill L slots) {}

theorem Memory.filled_succ (L : Layout) (slots k : ℕ) :
    Memory.filled L slots (k + 1) = (Memory.filled L slots k).fill L slots k := by
  rw [filled, List.range_succ, List.foldl_concat, ← filled]

/-- **After the last store all of it is there.** -/
theorem Memory.filled_all (L : Layout) (slots : ℕ) :
    Memory.filled L slots (fillLength slots) = .complete L slots := by
  -- the header takes six stores, every slot one
  have hslots : ∀ n,
      Memory.filled L slots (6 + n) = { Memory.complete L slots with slots := n } := by
    intro n
    induction n with
    | zero => rfl
    | succ n ih =>
      rw [← Nat.add_assoc, filled_succ, ih, Nat.add_comm 6 n]
      rfl
  exact hslots slots

/-- The test of `attach` without `init`. -/
def Memory.matches (L : Layout) (count : ℕ) (m : Memory) : Bool :=
  m.magic == kMagic && m.layoutVersion == 3 && m.slotCount == count && m.slotSize == L.slot

/-! ### The system -/

/-- A shared-memory object. -/
structure Inode where
  /-- Who made it. -/
  creator : ℕ
  size : ℕ := 0
  lock : FileLock ℕ := .free
  memory : Memory := {}
  ready : Bool := false
  abandoned : Bool := false

/-- What a process is for. -/
inductive Role
  | creator (slots : ℕ)
  | attacher (slots : ℕ)
  /-- `wait_ring`. -/
  | waiter
deriving DecidableEq

/-- `--slots`. -/
def Role.slots : Role → ℕ
  | .creator slots | .attacher slots => slots
  | .waiter => 0

/-- Where a process is, with the object it uses. -/
inductive Pc
  /-- At `shm_open`. -/
  | start
  /-- The creator, at `flock`. -/
  | locking (i : ℕ)
  /-- At `ftruncate`. -/
  | sizing (i : ℕ)
  /-- At `mmap`. -/
  | mapping (i : ℕ)
  /-- In `attach`, at store `k`; after the last one, at `ready`. -/
  | filling (i k : ℕ)
  /-- After `ready`. -/
  | owner (i : ℕ)
  /-- The handler of `open` has closed the file; at `shm_unlink`. -/
  | undoing (i : ℕ)
  /-- In the destructor, after `shm_unlink`. -/
  | unlinked (i : ℕ)
  /-- An attacher or `wait_ring`, at `flock`. -/
  | waiting (i : ℕ)
  /-- At `fstat`, with the shared lock. -/
  | checking (i : ℕ)
  /-- At `mmap`, with the shared lock. -/
  | entering (i : ℕ)
  /-- In `attach`. -/
  | joining (i : ℕ)
  /-- After `attach`. -/
  | attached (i : ℕ)
  /-- `wait_ring` has returned. -/
  | seen (i : ℕ)
  | gone
  | dead
deriving DecidableEq

structure System where
  /-- The object that has the name. -/
  name : Option ℕ := none
  /-- The number of objects ever made. -/
  made : ℕ := 0
  inodes : ℕ → Inode := fun _ => { creator := 0 }
  pcs : ℕ → Pc := fun _ => .start

/-- What a process can do. -/
inductive Action
  | next
  | fail
  | kill

namespace System

variable (W : System)

def setPc (p : ℕ) (pc : Pc) : System := { W with pcs := Function.update W.pcs p pc }

/-- Process `p` changes object `i` and goes on to `pc`. -/
def move (p i : ℕ) (pc : Pc) (node : Inode) : System :=
  { W with pcs := Function.update W.pcs p pc, inodes := Function.update W.inodes i node }

@[simp] theorem inodes_move (p i : ℕ) (pc : Pc) (node : Inode) :
    (W.move p i pc node).inodes i = node := Function.update_self ..

/-- It gives its lock back, or closes the file. -/
def unlock (p i : ℕ) (pc : Pc) : System :=
  W.move p i pc { W.inodes i with lock := (W.inodes i).lock.release p }

/-- The creator fails or dies before `ready`, and its file is closed. -/
def abandon (p i : ℕ) (pc : Pc) : System :=
  W.move p i pc { W.inodes i with lock := (W.inodes i).lock.release p, abandoned := true }

/-- The next step of process `p`; `none` where it has to try again. -/
def next (L : Layout) (role : Role) (p : ℕ) : Option System :=
  match W.pcs p with
  | .start =>
    match role, W.name with
    -- `O_EXCL`
    | .creator _, some _ => some (W.setPc p .gone)
    | .creator _, none =>
      some { W.move p W.made (.locking W.made) { creator := p } with
        name := some W.made
        made := W.made + 1 }
    | _, name => name.map fun i => W.setPc p (.waiting i)
  | .locking i =>
    ((W.inodes i).lock.tryExclusive p).map fun lock =>
      W.move p i (.sizing i) { W.inodes i with lock }
  | .sizing i =>
    some (W.move p i (.mapping i) { W.inodes i with size := L.regionSize role.slots })
  | .mapping i => some (W.setPc p (.filling i 0))
  | .filling i k =>
    if k < fillLength role.slots then
      some (W.move p i (.filling i (k + 1))
        { W.inodes i with memory := (W.inodes i).memory.fill L role.slots k })
    else
      -- `ready`
      some (W.move p i (.owner i)
        { W.inodes i with lock := (W.inodes i).lock.release p, ready := true })
  | .owner i => some { W.setPc p (.unlinked i) with name := none }
  | .undoing _ => some { W.setPc p .gone with name := none }
  | .unlinked i => some (W.unlock p i .gone)
  | .waiting i =>
    match (W.inodes i).lock.tryShared p with
    | some lock => some (W.move p i (.checking i) { W.inodes i with lock })
    -- `wait_ring` closes the file and opens it again
    | none => if role = .waiter then some (W.setPc p .start) else none
  | .checking i =>
    match role with
    | .attacher slots =>
      if (W.inodes i).size = 0 then some (W.unlock p i (.waiting i))
      else if (W.inodes i).size ≠ L.regionSize slots then some (W.unlock p i .gone)
      else some (W.setPc p (.entering i))
    | _ => some (W.unlock p i (if (W.inodes i).size = 0 then .start else .seen i))
  | .entering i => some (W.unlock p i (.joining i))
  | .joining i =>
    some (W.setPc p (if (W.inodes i).memory.matches L role.slots then .attached i else .gone))
  | .attached _ => some (W.setPc p .gone)
  | .seen _ | .gone | .dead => none

/-- Process `p` throws, or is asked to stop. -/
def fail (p : ℕ) : Option System :=
  match W.pcs p with
  | .start | .waiting _ | .joining _ | .attached _ => some (W.setPc p .gone)
  | .locking i | .sizing i | .mapping i => some (W.abandon p i (.undoing i))
  -- the destructor: the name first, then the file
  | .filling i _ =>
    some { W.move p i (.unlinked i) { W.inodes i with abandoned := true } with name := none }
  | .owner i => some { W.setPc p (.unlinked i) with name := none }
  | .checking i | .entering i => some (W.unlock p i .gone)
  | .undoing _ | .unlinked _ | .seen _ | .gone | .dead => none

/-- Process `p` dies. -/
def kill (p : ℕ) : Option System :=
  match W.pcs p with
  | .locking i | .sizing i | .mapping i | .filling i _ => some (W.abandon p i .dead)
  | .unlinked i | .checking i | .entering i => some (W.unlock p i .dead)
  | _ => some (W.setPc p .dead)

end System

/-- The processes of `roles`, on a name that is not in use. -/
def segment (L : Layout) (roles : ℕ → Role) : Machine System (ℕ × Action) where
  start := {}
  step W a :=
    match a.2 with
    | .next => W.next L (roles a.1) a.1
    | .fail => W.fail a.1
    | .kill => W.kill a.1

end Segment
end Shm
end PulseFanout
