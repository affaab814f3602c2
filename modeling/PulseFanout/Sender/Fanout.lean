import Mathlib.Logic.Function.Basic
import PulseFanout.Framework.Machine
import PulseFanout.Sender.Batch

/-!
# The fan-out (`sender.cpp`, `Fanout`)

With more than one destination the sender hands every batch to a `Fanout`: each destination has a
queue of bounded size and a thread that takes work off it and flushes it to the destination's
socket. A destination whose queue would grow past the bound, or whose flush fails, is marked failed:
what it has queued is dropped and counted, and it is offered nothing more. `finish` marks the queues
done, waits for the threads one after the other and reports whether any destination has failed.

The machine has one step for every critical section, and one for a flush, which a thread does
outside its lock and which touches nothing that is shared. `Main` is where the thread stands that
enqueues and finishes; a `worker` action moves the thread of one destination, with an outcome for
its flush. `Stepped` lists what a step may be, and every proof about steps goes by its cases.

`Destination.sent`, `Destination.offered` and `Destination.recounted` are history: what has gone out
on the socket, the batches `enqueue` has come by with, and how many packets were counted in flushes
that then failed. `Sound` is about one destination and what it says of them:
unless it has failed, what was sent, what is in flight and what is queued make up what was offered.
-/

namespace PulseFanout
namespace Sender

open Framework

/-! ### One destination -/

/-- `for j: bytes += batch.lengths[j]` -/
def byteCount (frames : List Datagram) : ℕ := (frames.map List.length).sum

/-- `Fanout::Work` -/
structure Work where
  frames : List Datagram
  bytes : ℕ
  bytes_eq : bytes = byteCount frames

/-- Where the thread of a destination stands. -/
inductive Worker
  /-- At the condition variable. -/
  | waiting
  /-- It has taken work and holds no lock. -/
  | sending (work : Work)
  /-- The flush has failed. -/
  | failing (work : Work)
  | exited

/-- `Fanout::DestinationState` -/
structure Destination where
  queue : List Work := []
  bytes : ℕ := 0
  done : Bool := false
  failed : Bool := false
  rejected : ℕ := 0
  /-- `counters.packets` -/
  packets : ℕ := 0
  worker : Worker := .waiting
  sent : List Datagram := []
  offered : List (List Datagram) := []
  recounted : ℕ := 0

namespace Destination

/-- What both failures do: `frames` and everything queued count as rejected. -/
def isolate (d : Destination) (frames : ℕ) : Destination :=
  { d with
    failed := true
    rejected := d.rejected + frames + (d.queue.map fun work => work.frames.length).sum
    queue := []
    bytes := 0 }

/-- The body of the loop of `enqueue`. -/
def offer (cfg : Config) (batch : List Datagram) (d : Destination) : Destination :=
  let d := { d with offered := d.offered ++ [batch] }
  if d.failed then { d with rejected := d.rejected + batch.length }
  else if d.bytes + byteCount batch > cfg.queueBytes then d.isolate batch.length
  else
    { d with
      bytes := d.bytes + byteCount batch
      queue := d.queue ++ [⟨batch, byteCount batch, rfl⟩] }

/-- The next step of the thread; `none` if it waits or is gone. -/
def move (cfg : Config) (outcome : Outcome) (d : Destination) : Option Destination :=
  match d.worker with
  | .waiting =>
    if d.failed || (d.done && d.queue.isEmpty) then some { d with worker := .exited }
    else
      match d.queue with
      | [] => none
      | work :: queue =>
        some { d with queue, bytes := d.bytes - work.bytes, worker := .sending work }
  | .sending work =>
    let result := flushBatchDirect cfg work.frames [outcome]
    let packets := flushPackets cfg work.frames outcome
    some { d with
      packets := d.packets + packets
      recounted := if result.2 then d.recounted else d.recounted + packets
      sent := d.sent ++ result.1.flatten
      worker := if result.2 then .waiting else .failing work }
  | .failing work => some { d.isolate work.frames.length with worker := .exited }
  | .exited => none

variable (cfg : Config) (batch : List Datagram) (d : Destination)

@[simp] theorem offered_offer : (d.offer cfg batch).offered = d.offered ++ [batch] := by
  unfold offer
  dsimp only
  split
  · rfl
  split <;> rfl

@[simp] theorem done_offer : (d.offer cfg batch).done = d.done := by
  unfold offer
  dsimp only
  split
  · rfl
  split <;> rfl

theorem failed_offer (hfailed : d.failed = true) : (d.offer cfg batch).failed = true := by
  unfold offer
  dsimp only
  rw [if_pos hfailed]
  exact hfailed

end Destination

/-! ### The machine -/

/-- A batch as `make_batch` makes it and `queue_datagram` fills it. -/
structure Batch (cfg : Config) where
  frames : List Datagram
  size_le : frames.length ≤ cfg.batchSize

/-- Where the thread stands that enqueues and finishes. -/
inductive Main
  | idle
  /-- In `enqueue`, before destination `i`. -/
  | enqueuing (batch : List Datagram) (i : ℕ)
  /-- In the first loop of `finish`. -/
  | closing (i : ℕ)
  /-- In the second, with the value of `ok`. -/
  | joining (i : ℕ) (ok : Bool)
  | returned (ok : Bool)
deriving DecidableEq

/-- The state, with the batches `enqueue` was called with so far. -/
structure State where
  destinations : ℕ → Destination
  main : Main
  batches : List (List Datagram)

/-- Write one destination back. -/
def State.put (S : State) (i : ℕ) (d : Destination) : State :=
  { S with destinations := Function.update S.destinations i d }

inductive Action (cfg : Config)
  | enqueue (batch : Batch cfg)
  | finish
  /-- The next critical section of the call in progress. -/
  | main
  | worker (i : ℕ) (outcome : Outcome)

/-- The next step of `enqueue` or `finish`, for `n` destinations. -/
def State.advance (cfg : Config) (n : ℕ) (S : State) : Option State :=
  match S.main with
  | .idle => none
  | .enqueuing batch i =>
    if i < n then
      some { S.put i ((S.destinations i).offer cfg batch) with main := .enqueuing batch (i + 1) }
    else some { S with main := .idle }
  | .closing i =>
    if i < n then
      some { S.put i { S.destinations i with done := true } with main := .closing (i + 1) }
    else some { S with main := .joining 0 true }
  | .joining i ok =>
    if i < n then
      -- `join` returns when the thread is gone
      match (S.destinations i).worker with
      | .exited => some { S with main := .joining (i + 1) (ok && !(S.destinations i).failed) }
      | _ => none
    else some { S with main := .returned ok }
  | .returned _ => none

def State.step (cfg : Config) (n : ℕ) (S : State) : Action cfg → Option State
  | .enqueue batch =>
    if S.main = .idle then
      some { S with main := .enqueuing batch.frames 0, batches := S.batches ++ [batch.frames] }
    else none
  | .finish => if S.main = .idle then some { S with main := .closing 0 } else none
  | .main => S.advance cfg n
  | .worker i outcome =>
    if i < n then ((S.destinations i).move cfg outcome).map (S.put i) else none

/-- A fan-out to `n` destinations. -/
def fanout (cfg : Config) (n : ℕ) : Machine State (Action cfg) where
  start := ⟨fun _ => {}, .idle, []⟩
  step := State.step cfg n

/-- What a step may be. -/
inductive Stepped (cfg : Config) (n : ℕ) (S : State) : State → Prop
  | enqueue (batch : Batch cfg) (hmain : S.main = .idle) : Stepped cfg n S
      { S with main := .enqueuing batch.frames 0, batches := S.batches ++ [batch.frames] }
  | finish (hmain : S.main = .idle) : Stepped cfg n S { S with main := .closing 0 }
  | offer (batch : List Datagram) (k : ℕ) (hk : k < n) (hmain : S.main = .enqueuing batch k) :
      Stepped cfg n S
        { S.put k ((S.destinations k).offer cfg batch) with main := .enqueuing batch (k + 1) }
  | enqueued (batch : List Datagram) (k : ℕ) (hk : ¬ k < n) (hmain : S.main = .enqueuing batch k) :
      Stepped cfg n S { S with main := .idle }
  | close (k : ℕ) (hk : k < n) (hmain : S.main = .closing k) : Stepped cfg n S
      { S.put k { S.destinations k with done := true } with main := .closing (k + 1) }
  | closed (k : ℕ) (hk : ¬ k < n) (hmain : S.main = .closing k) :
      Stepped cfg n S { S with main := .joining 0 true }
  | join (k : ℕ) (ok : Bool) (hk : k < n) (hmain : S.main = .joining k ok)
      (hexited : (S.destinations k).worker = .exited) : Stepped cfg n S
      { S with main := .joining (k + 1) (ok && !(S.destinations k).failed) }
  | joined (k : ℕ) (ok : Bool) (hk : ¬ k < n) (hmain : S.main = .joining k ok) :
      Stepped cfg n S { S with main := .returned ok }
  | worker (k : ℕ) (outcome : Outcome) (d : Destination) (hk : k < n)
      (hmove : (S.destinations k).move cfg outcome = some d) : Stepped cfg n S (S.put k d)

theorem State.advance_stepped {cfg : Config} {n : ℕ} {S S' : State}
    (h : S.advance cfg n = some S') : Stepped cfg n S S' := by
  unfold advance at h
  split at h
  · cases h
  · next batch k hmain =>
    split at h
    · next hk =>
      cases h
      exact .offer batch k hk hmain
    · next hk =>
      cases h
      exact .enqueued batch k hk hmain
  · next k hmain =>
    split at h
    · next hk =>
      cases h
      exact .close k hk hmain
    · next hk =>
      cases h
      exact .closed k hk hmain
  · next k ok hmain =>
    split at h
    · next hk =>
      split at h
      · next hexited =>
        cases h
        exact .join k ok hk hmain hexited
      · cases h
    · next hk =>
      cases h
      exact .joined k ok hk hmain
  · cases h

theorem State.step_stepped {cfg : Config} {n : ℕ} {S S' : State} {a : Action cfg}
    (h : S.step cfg n a = some S') : Stepped cfg n S S' := by
  cases a with
  | enqueue batch =>
    simp only [step] at h
    split at h
    · next hmain =>
      cases h
      exact .enqueue batch hmain
    · cases h
  | finish =>
    simp only [step] at h
    split at h
    · next hmain =>
      cases h
      exact .finish hmain
    · cases h
  | main => exact advance_stepped h
  | worker k outcome =>
    simp only [step] at h
    split at h
    · next hk =>
      obtain ⟨d, hmove, rfl⟩ := Option.map_eq_some_iff.mp h
      exact .worker k outcome d hk hmove
    · cases h

/-! ### What a destination keeps -/

/-- The work a thread holds. -/
def Worker.inFlight : Worker → List (List Datagram)
  | .sending work => [work.frames]
  | _ => []

/-- The thread is about to report a failure. -/
def Worker.broken : Worker → Bool
  | .failing _ => true
  | _ => false

/-- What holds of every destination outside its critical sections. -/
structure Sound (cfg : Config) (d : Destination) : Prop where
  bytes_eq : d.bytes = (d.queue.map Work.bytes).sum
  bytes_le : d.bytes ≤ cfg.queueBytes
  /-- A thread leaves for one of two reasons. -/
  exited : d.worker = .exited → d.failed = true ∨ (d.done = true ∧ d.queue = [])
  /-- Nothing is lost, doubled or reordered between `enqueue` and the socket. -/
  flow : d.failed = false → d.worker.broken = false →
    d.sent ++ (d.worker.inFlight ++ d.queue.map Work.frames).flatMap (transmission cfg) =
      d.offered.flatMap (transmission cfg)

namespace Sound

variable {cfg : Config} {d d' : Destination}

theorem start (cfg : Config) : Sound cfg {} where
  bytes_eq := rfl
  bytes_le := Nat.zero_le _
  exited := fun h => Worker.noConfusion h
  flow := fun _ _ => rfl

/-- Failure empties the queue. -/
theorem isolate (d : Destination) (frames : ℕ) : Sound cfg (d.isolate frames) where
  bytes_eq := rfl
  bytes_le := Nat.zero_le _
  exited := fun _ => .inl rfl
  flow := fun hfailed => absurd hfailed Bool.false_ne_true.symm

/-- **`enqueue` comes by.** Before `finish`, a thread that is gone has failed. -/
theorem offer (h : Sound cfg d) (hopen : d.done = false) (batch : List Datagram) :
    Sound cfg (d.offer cfg batch) := by
  have hgone : d.worker = .exited → d.failed = true := by
    intro hexited
    rcases h.exited hexited with hfailed | ⟨hdone, -⟩
    · exact hfailed
    · rw [hopen] at hdone
      cases hdone
  unfold Destination.offer
  dsimp only
  split
  · next hfailed =>
    refine ⟨h.bytes_eq, h.bytes_le, fun _ => .inl hfailed, fun hok => ?_⟩
    rw [hfailed] at hok
    cases hok
  next hfailed =>
  split
  · exact isolate _ _
  next hfits =>
  refine ⟨?_, Nat.le_of_not_lt hfits, fun hexited => .inl (hgone hexited), fun hok hwhole => ?_⟩
  · -- one more piece of work, with its bytes
    dsimp only
    rw [h.bytes_eq, List.map_append, List.sum_append]
    rfl
  · have hflow := h.flow hok hwhole
    dsimp only
    rw [List.map_append, ← List.append_assoc, List.flatMap_append, ← List.append_assoc, hflow,
      List.flatMap_append]
    rfl

/-- `finish` marks the destination. -/
theorem close (h : Sound cfg d) : Sound cfg { d with done := true } where
  bytes_eq := h.bytes_eq
  bytes_le := h.bytes_le
  exited := fun hexited => (h.exited hexited).imp_right fun hboth => ⟨rfl, hboth.2⟩
  flow := h.flow

end Sound

/-- What a step of the thread does to the fields the calling thread relies on. -/
structure Moved (d d' : Destination) : Prop where
  before : d.worker ≠ .exited
  done : d'.done = d.done
  offered : d'.offered = d.offered
  failed : d.failed = true → d'.failed = true

variable {cfg : Config} {d d' : Destination} {outcome : Outcome}

theorem Moved.of_move (hmove : d.move cfg outcome = some d') : Moved d d' := by
  unfold Destination.move at hmove
  have hbefore : d.worker ≠ .exited := by
    intro hexited
    rw [hexited] at hmove
    cases hmove
  split at hmove
  · split at hmove
    · cases hmove
      exact ⟨hbefore, rfl, rfl, id⟩
    · split at hmove
      · cases hmove
      · cases hmove
        exact ⟨hbefore, rfl, rfl, id⟩
  · cases hmove
    exact ⟨hbefore, rfl, rfl, id⟩
  · cases hmove
    exact ⟨hbefore, rfl, rfl, fun _ => rfl⟩
  · cases hmove

/-- **One step of the thread.** -/
theorem Sound.move (h : Sound cfg d) (hmove : d.move cfg outcome = some d') : Sound cfg d' := by
  unfold Destination.move at hmove
  cases hworker : d.worker with
  | waiting =>
    rw [hworker] at hmove
    dsimp only at hmove
    split at hmove
    · next hleave =>
      cases hmove
      refine ⟨h.bytes_eq, h.bytes_le, fun _ => ?_, fun hok _ => ?_⟩
      · simpa only [Bool.or_eq_true, Bool.and_eq_true, List.isEmpty_iff] using hleave
      · have hflow := h.flow hok (by rw [hworker]; rfl)
        rwa [hworker] at hflow
    next hstay =>
    split at hmove
    · cases hmove
    next work queue hqueue =>
    cases hmove
    have hsum : d.bytes = work.bytes + (queue.map Work.bytes).sum := by
      rw [h.bytes_eq, hqueue]
      rfl
    have hle := h.bytes_le
    refine ⟨?_, ?_, fun hexited => Worker.noConfusion hexited, fun hok _ => ?_⟩
    · dsimp only
      omega
    · dsimp only
      omega
    · -- the work goes from the head of the queue into flight
      have hflow := h.flow hok (by rw [hworker]; rfl)
      rw [hworker, hqueue] at hflow
      exact hflow
  | sending work =>
    rw [hworker] at hmove
    dsimp only at hmove
    cases hmove
    refine ⟨h.bytes_eq, h.bytes_le, fun hexited => ?_, fun hok hwhole => ?_⟩
    · dsimp only at hexited
      split at hexited <;> cases hexited
    · -- the flush has sent what was in flight, or the thread would be `failing`
      have hsent : (flushBatchDirect cfg work.frames [outcome]).2 = true := by
        by_contra hnot
        dsimp only at hwhole
        rw [if_neg hnot] at hwhole
        cases hwhole
      have hflow := h.flow hok (by rw [hworker]; rfl)
      rw [hworker] at hflow
      dsimp only
      rw [if_pos hsent, flushBatchDirect_of_ok hsent, ← hflow, List.append_assoc]
      rfl
  | failing work =>
    rw [hworker] at hmove
    cases hmove
    have hisolate : Sound cfg (d.isolate work.frames.length) := .isolate d _
    exact ⟨hisolate.bytes_eq, hisolate.bytes_le, fun _ => .inl rfl,
      fun hok => absurd hok Bool.false_ne_true.symm⟩
  | exited =>
    rw [hworker] at hmove
    cases hmove

/-! ### Runs

Four readings of where the calling thread stands say what it relies on, so that a step of a worker
has nothing to show but that it changes none of what they speak of. -/

namespace Main

/-- The batch that destination `i` is still to be offered. -/
def pending (i : ℕ) : Main → List (List Datagram)
  | .enqueuing batch j => if i < j then [] else [batch]
  | _ => []

/-- How many destinations `finish` has marked. -/
def closed (n : ℕ) : Main → ℕ
  | .idle => 0
  | .enqueuing _ _ => 0
  | .closing j => j
  | .joining _ _ => n
  | .returned _ => n

/-- How many threads it has joined. -/
def joined (n : ℕ) : Main → ℕ
  | .joining j _ => j
  | .returned _ => n
  | _ => 0

/-- The variable `ok`. -/
def ok : Main → Bool
  | .joining _ ok => ok
  | .returned ok => ok
  | _ => true

end Main

/-- The invariant. -/
structure Inv (cfg : Config) (n : ℕ) (S : State) : Prop where
  sound : ∀ i < n, Sound cfg (S.destinations i)
  offered : ∀ i < n, (S.destinations i).offered ++ S.main.pending i = S.batches
  done : ∀ i < n, (S.destinations i).done = decide (i < S.main.closed n)
  joined : ∀ i < n, i < S.main.joined n → (S.destinations i).worker = .exited
  verdict : S.main.ok = true ↔
    ∀ i < n, i < S.main.joined n → (S.destinations i).failed = false

namespace State

variable {S S' : State} {n : ℕ}

@[simp] theorem destinations_put (S : State) (i : ℕ) (d : Destination) :
    (S.put i d).destinations i = d := by
  unfold put
  dsimp only
  rw [Function.update_self]

theorem destinations_put_of_ne (S : State) {i j : ℕ} (hne : j ≠ i) (d : Destination) :
    (S.put i d).destinations j = S.destinations j := by
  unfold put
  dsimp only
  rw [Function.update_of_ne hne]

/-- What is to be shown of all destinations after a write to one. -/
theorem forall_put {P : ℕ → Destination → Prop} {k : ℕ} {d : Destination} (hd : P k d)
    (h : ∀ i < n, i ≠ k → P i (S.destinations i)) : ∀ i < n, P i ((S.put k d).destinations i) := by
  intro i hi
  by_cases hik : i = k
  · subst hik
    rw [destinations_put]
    exact hd
  · rw [destinations_put_of_ne S hik]
    exact h i hi hik

end State

namespace Inv

variable {S S' : State} {n : ℕ}

open State

/-- Before the first `join` two of the clauses are empty. -/
theorem of_early (hsound : ∀ i < n, Sound cfg (S.destinations i))
    (hoffered : ∀ i < n, (S.destinations i).offered ++ S.main.pending i = S.batches)
    (hdone : ∀ i < n, (S.destinations i).done = decide (i < S.main.closed n))
    (hjoined : S.main.joined n = 0) (hok : S.main.ok = true) : Inv cfg n S := by
  have hnone : ∀ i, ¬ i < S.main.joined n := by
    intro i
    rw [hjoined]
    exact Nat.not_lt_zero i
  exact ⟨hsound, hoffered, hdone, fun i _ hi => absurd hi (hnone i),
    iff_of_true hok fun i _ hi => absurd hi (hnone i)⟩

theorem start (cfg : Config) (n : ℕ) : Inv cfg n (fanout cfg n).start :=
  of_early (fun _ _ => .start cfg) (fun _ _ => rfl)
    (fun i _ => (decide_eq_false (Nat.not_lt_zero i)).symm) rfl rfl

/-- **A step of one destination's thread** leaves the other destinations alone, and of its own what
the calling thread relies on. -/
theorem worker (h : Inv cfg n S) {k : ℕ} (hk : k < n)
    (hmove : (S.destinations k).move cfg outcome = some d') : Inv cfg n (S.put k d') := by
  have hsound := (h.sound k hk).move hmove
  have hmoved := Moved.of_move hmove
  -- a thread that was joined does not move
  have hlate : ¬ k < S.main.joined n := fun hjoined => hmoved.before (h.joined k hk hjoined)
  refine ⟨?_, ?_, ?_, ?_, ?_⟩
  · exact forall_put (P := fun _ d => Sound cfg d) hsound fun i hi _ => h.sound i hi
  · refine forall_put (P := fun i d => d.offered ++ S.main.pending i = S.batches) ?_ fun i hi _ =>
      h.offered i hi
    rw [hmoved.offered]
    exact h.offered k hk
  · refine forall_put (P := fun i d => d.done = decide (i < S.main.closed n)) ?_ fun i hi _ =>
      h.done i hi
    rw [hmoved.done]
    exact h.done k hk
  · exact forall_put (P := fun i d => i < S.main.joined n → d.worker = .exited)
      (fun hjoined => absurd hjoined hlate) fun i hi _ => h.joined i hi
  · refine h.verdict.trans (forall₃_congr fun i _ hjoined => ?_)
    have hik : i ≠ k := by
      rintro rfl
      exact hlate hjoined
    rw [destinations_put_of_ne S hik]

/-- **`enqueue` at one destination.** -/
theorem offer (h : Inv cfg n S) {batch : List Datagram} {k : ℕ} (hk : k < n)
    (hmain : S.main = .enqueuing batch k) :
    Inv cfg n
      { S.put k ((S.destinations k).offer cfg batch) with main := .enqueuing batch (k + 1) } := by
  have hpending := h.offered
  have hopen := h.done
  rw [hmain] at hpending hopen
  refine of_early ?_ ?_ ?_ rfl rfl
  · exact forall_put (P := fun _ d => Sound cfg d) ((h.sound k hk).offer (hopen k hk) batch)
      fun i hi _ => h.sound i hi
  · refine forall_put
      (P := fun i d => d.offered ++ Main.pending i (.enqueuing batch (k + 1)) = S.batches) ?_ ?_
    · have hlast := hpending k hk
      rw [Main.pending, if_neg (Nat.lt_irrefl k)] at hlast
      rw [Destination.offered_offer, Main.pending, if_pos (Nat.lt_succ_self k), hlast,
        List.append_nil]
    · intro i hi hik
      have hiff : i < k + 1 ↔ i < k := by omega
      simpa only [Main.pending, hiff] using hpending i hi
  · refine forall_put (P := fun _ d => d.done = decide (_ < 0)) ?_ fun i hi _ => hopen i hi
    rw [Destination.done_offer]
    exact hopen k hk

/-- **`finish` marks one destination.** -/
theorem close (h : Inv cfg n S) {k : ℕ} (hk : k < n) (hmain : S.main = .closing k) :
    Inv cfg n { S.put k { S.destinations k with done := true } with main := .closing (k + 1) } := by
  have hoffered := h.offered
  have hdone := h.done
  rw [hmain] at hoffered hdone
  refine of_early ?_ ?_ ?_ rfl rfl
  · exact forall_put (P := fun _ d => Sound cfg d) (h.sound k hk).close fun i hi _ => h.sound i hi
  · exact forall_put (P := fun _ d => d.offered ++ [] = S.batches) (hoffered k hk) fun i hi _ =>
      hoffered i hi
  · refine forall_put (P := fun i d => d.done = decide (i < k + 1)) ?_ ?_
    · exact (decide_eq_true (Nat.lt_succ_self k)).symm
    · intro i hi hik
      have hiff : i < k + 1 ↔ i < k := by omega
      rw [decide_eq_decide.mpr hiff]
      exact hdone i hi

/-- **`finish` joins one thread.** -/
theorem join (h : Inv cfg n S) {k : ℕ} {ok : Bool} (hk : k < n) (hmain : S.main = .joining k ok)
    (hexited : (S.destinations k).worker = .exited) :
    Inv cfg n { S with main := .joining (k + 1) (ok && !(S.destinations k).failed) } := by
  obtain ⟨hsound, hoffered, hdone, hjoined, hverdict⟩ := h
  rw [hmain] at hoffered hdone hjoined hverdict
  simp only [Main.ok, Main.joined] at hjoined hverdict
  -- of the first `k + 1` destinations, the last is `k`
  have hsplit : ∀ i, i < k + 1 → i ≠ k → i < k := by
    intro i hi hik
    omega
  refine ⟨hsound, hoffered, hdone, fun i hi hik => ?_, ?_⟩
  · by_cases heq : i = k
    · rw [heq]
      exact hexited
    · exact hjoined i hi (hsplit i hik heq)
  · show (ok && !(S.destinations k).failed) = true ↔
      ∀ i < n, i < k + 1 → (S.destinations i).failed = false
    rw [Bool.and_eq_true, hverdict, Bool.not_eq_true']
    constructor
    · rintro ⟨hbefore, hthis⟩ i hi hik
      by_cases heq : i = k
      · rw [heq]
        exact hthis
      · exact hbefore i hi (hsplit i hik heq)
    · intro hall
      exact ⟨fun i hi hik => hall i hi (Nat.lt_succ_of_lt hik), hall k hk (Nat.lt_succ_self k)⟩

theorem step (h : Inv cfg n S) (hstep : Stepped cfg n S S') : Inv cfg n S' := by
  cases hstep with
  | worker k outcome d hk hmove => exact h.worker hk hmove
  | offer batch k hk hmain => exact h.offer hk hmain
  | close k hk hmain => exact h.close hk hmain
  | join k ok hk hmain hexited => exact h.join hk hmain hexited
  -- the other steps move the calling thread only; no destination has changed
  | enqueue batch hmain =>
    obtain ⟨hsound, hoffered, hdone, -, -⟩ := h
    rw [hmain] at hoffered hdone
    refine of_early hsound (fun i hi => ?_) hdone rfl rfl
    have hall := hoffered i hi
    simp only [Main.pending, List.append_nil] at hall
    simp only [Main.pending, if_neg (Nat.not_lt_zero i), hall]
  | finish hmain =>
    obtain ⟨hsound, hoffered, hdone, -, -⟩ := h
    rw [hmain] at hoffered hdone
    exact of_early hsound hoffered hdone rfl rfl
  | enqueued batch k hk hmain =>
    obtain ⟨hsound, hoffered, hdone, -, -⟩ := h
    rw [hmain] at hoffered hdone
    refine of_early hsound (fun i hi => ?_) hdone rfl rfl
    have hall := hoffered i hi
    rw [Main.pending, if_pos (Nat.lt_of_lt_of_le hi (Nat.le_of_not_lt hk))] at hall
    exact hall
  | closed k hk hmain =>
    obtain ⟨hsound, hoffered, hdone, -, -⟩ := h
    rw [hmain] at hoffered hdone
    refine of_early hsound hoffered (fun i hi => ?_) rfl rfl
    have hik : i < k := Nat.lt_of_lt_of_le hi (Nat.le_of_not_lt hk)
    rw [hdone i hi]
    exact decide_eq_decide.mpr (iff_of_true hik hi)
  | joined k ok hk hmain =>
    obtain ⟨hsound, hoffered, hdone, hjoined, hverdict⟩ := h
    rw [hmain] at hoffered hdone hjoined hverdict
    have hall : ∀ i < n, i < k := fun i hi => Nat.lt_of_lt_of_le hi (Nat.le_of_not_lt hk)
    refine ⟨hsound, hoffered, hdone, fun i hi _ => hjoined i hi (hall i hi), ?_⟩
    refine hverdict.trans (forall₂_congr fun i hi => ?_)
    exact imp_congr (iff_of_true (hall i hi) hi) Iff.rfl

/-- **The invariant holds in every interleaving.** -/
theorem of_reachable (hS : (fanout cfg n).Reachable S) : Inv cfg n S :=
  hS.invariant (start cfg n) fun h hstep => h.step (step_stepped hstep)

end Inv

/-! ### How `finish` ends -/

/-- `finish` has been called. -/
def Main.finishing : Main → Bool
  | .idle => false
  | .enqueuing _ _ => false
  | _ => true

/-- A bound on the steps the calling thread has left in `finish`. -/
def Main.left (n : ℕ) : Main → ℕ
  | .closing i => (n - i) + (n + 2)
  | .joining i _ => (n - i) + 1
  | _ => 0

/-- A bound on the steps a thread has left if nothing is queued any more. -/
def Destination.left (d : Destination) : ℕ :=
  match d.worker with
  | .waiting => 2 * d.queue.length + 1
  | .sending _ => 2 * d.queue.length + 2
  | .failing _ => 1
  | .exited => 0

def State.left (n : ℕ) (S : State) : ℕ :=
  S.main.left n + ∑ i ∈ Finset.range n, (S.destinations i).left

theorem Destination.left_of_move (hmove : d.move cfg outcome = some d') : d'.left < d.left := by
  unfold Destination.move at hmove
  unfold Destination.left
  cases hworker : d.worker with
  | waiting =>
    rw [hworker] at hmove
    dsimp only at hmove
    split at hmove
    · cases hmove
      exact Nat.succ_pos _
    split at hmove
    · cases hmove
    next work queue hqueue =>
    cases hmove
    dsimp only
    rw [hqueue, List.length_cons]
    omega
  | sending work =>
    rw [hworker] at hmove
    cases hmove
    dsimp only
    split
    all_goals
      next hnext =>
      split at hnext
      all_goals first | omega | cases hnext
  | failing work =>
    rw [hworker] at hmove
    cases hmove
    exact Nat.zero_lt_one
  | exited =>
    rw [hworker] at hmove
    cases hmove

/-- A thread that is told to finish has a step until it is gone. -/
theorem Destination.exists_move (cfg : Config) (hdone : d.done = true) (hhere : d.worker ≠ .exited)
    (outcome : Outcome) : ∃ d', d.move cfg outcome = some d' := by
  unfold Destination.move
  cases hworker : d.worker with
  | waiting =>
    dsimp only
    split
    · exact ⟨_, rfl⟩
    next hstay =>
    cases hqueue : d.queue with
    | nil =>
      refine absurd ?_ hstay
      rw [hdone, hqueue, Bool.or_eq_true]
      exact .inr rfl
    | cons work queue => exact ⟨_, rfl⟩
  | sending work => exact ⟨_, rfl⟩
  | failing work => exact ⟨_, rfl⟩
  | exited => exact absurd hworker hhere

namespace State

variable {S S' : State} {n : ℕ}

/-- Both readings of a sum over the destinations after a write to one. -/
theorem sum_left_put_le {k : ℕ} {d : Destination} (hd : d.left ≤ (S.destinations k).left) :
    ∑ i ∈ Finset.range n, ((S.put k d).destinations i).left ≤
      ∑ i ∈ Finset.range n, (S.destinations i).left := by
  refine Finset.sum_le_sum fun i hi => ?_
  exact forall_put (P := fun i d => d.left ≤ (S.destinations i).left) hd (fun _ _ _ => le_rfl) i
    (Finset.mem_range.mp hi)

theorem sum_left_put_lt {k : ℕ} (hk : k < n) {d : Destination}
    (hd : d.left < (S.destinations k).left) :
    ∑ i ∈ Finset.range n, ((S.put k d).destinations i).left <
      ∑ i ∈ Finset.range n, (S.destinations i).left := by
  refine Finset.sum_lt_sum (fun i hi => ?_) ⟨k, Finset.mem_range.mpr hk, ?_⟩
  · exact forall_put (P := fun i d => d.left ≤ (S.destinations i).left) hd.le
      (fun _ _ _ => le_rfl) i (Finset.mem_range.mp hi)
  · rw [destinations_put]
    exact hd

/-- **Every step after the call of `finish`** is one of those that were left. -/
theorem left_of_step (hcalled : S.main.finishing = true) (hstep : Stepped cfg n S S') :
    S'.main.finishing = true ∧ S'.left n < S.left n := by
  cases hstep with
  | enqueue batch hmain | finish hmain | offer batch k hk hmain | enqueued batch k hk hmain =>
    rw [hmain] at hcalled
    cases hcalled
  | close k hk hmain =>
    have hsum := sum_left_put_le (S := S) (n := n) (k := k)
      (d := { S.destinations k with done := true }) le_rfl
    refine ⟨rfl, Nat.add_lt_add_of_lt_of_le ?_ hsum⟩
    rw [hmain]
    simp only [Main.left]
    omega
  | closed k hk hmain =>
    refine ⟨rfl, Nat.add_lt_add_right ?_ _⟩
    rw [hmain]
    simp only [Main.left]
    omega
  | join k ok hk hmain hexited =>
    refine ⟨rfl, Nat.add_lt_add_right ?_ _⟩
    rw [hmain]
    simp only [Main.left]
    omega
  | joined k ok hk hmain =>
    refine ⟨rfl, Nat.add_lt_add_right ?_ _⟩
    rw [hmain]
    exact Nat.succ_pos _
  | worker k outcome d hk hmove =>
    exact ⟨hcalled, Nat.add_lt_add_left (sum_left_put_lt hk (Destination.left_of_move hmove)) _⟩

/-- Until `finish` returns, it or the thread it waits for has a step. -/
theorem exists_step (h : Inv cfg n S) (hcalled : S.main.finishing = true) :
    (∃ ok, S.main = .returned ok) ∨ ∃ a S', S.step cfg n a = some S' := by
  cases hmain : S.main with
  | idle =>
    rw [hmain] at hcalled
    cases hcalled
  | enqueuing batch k =>
    rw [hmain] at hcalled
    cases hcalled
  | closing k =>
    refine .inr ⟨.main, ?_⟩
    simp only [step, advance, hmain]
    split
    · exact ⟨_, rfl⟩
    · exact ⟨_, rfl⟩
  | joining k ok =>
    by_cases hk : k < n
    · by_cases hexited : (S.destinations k).worker = .exited
      · refine .inr ⟨.main, ?_⟩
        simp only [step, advance, hmain, if_pos hk, hexited]
        exact ⟨_, rfl⟩
      -- the thread it waits for was told to finish, so it has a step
      · have hdone : (S.destinations k).done = true := by
          rw [h.done k hk, hmain]
          exact decide_eq_true hk
        obtain ⟨d', hmove⟩ := Destination.exists_move cfg hdone hexited .unknown
        refine .inr ⟨.worker k .unknown, S.put k d', ?_⟩
        simp only [step, if_pos hk, hmove, Option.map_some]
    · refine .inr ⟨.main, ?_⟩
      simp only [step, advance, hmain, if_neg hk]
      exact ⟨_, rfl⟩
  | returned ok => exact .inl ⟨ok, rfl⟩

theorem failed_of_step (hstep : Stepped cfg n S S') {i : ℕ}
    (hfailed : (S.destinations i).failed = true) : (S'.destinations i).failed = true := by
  have hput : ∀ {k d'}, ((S.destinations k).failed = true → d'.failed = true) →
      ((S.put k d').destinations i).failed = true := by
    intro k d' hd'
    by_cases hik : i = k
    · subst hik
      rw [destinations_put]
      exact hd' hfailed
    · rw [destinations_put_of_ne S hik]
      exact hfailed
  cases hstep with
  | offer batch k hk hmain => exact hput (Destination.failed_offer cfg _ _)
  | close k hk hmain => exact hput id
  | worker k outcome d hk hmove => exact hput (Moved.of_move hmove).failed
  | enqueue | finish | enqueued | closed | join | joined => exact hfailed

end State

/-- **Fan-out isolation.** In every interleaving of the calling thread with the threads of the
destinations, whatever their flushes answer: the byte count of a destination is that of its queue
and within the bound; when `finish` returns, a destination that has not failed has sent all batches,
in order and repeated; and the result says whether one has failed. A destination that has failed
stays so, and `finish` returns. -/
theorem fanout_isolates (cfg : Config) (n : ℕ) {S : State} (hS : (fanout cfg n).Reachable S) :
    (∀ i < n, (S.destinations i).bytes = ((S.destinations i).queue.map Work.bytes).sum ∧
      (S.destinations i).bytes ≤ cfg.queueBytes) ∧
    (∀ ok, S.main = .returned ok →
      (∀ i < n, (S.destinations i).failed = false →
        (S.destinations i).sent = S.batches.flatMap (transmission cfg)) ∧
      (ok = true ↔ ∀ i < n, (S.destinations i).failed = false)) ∧
    (∀ S', (fanout cfg n).Leads S S' → ∀ i, (S.destinations i).failed = true →
      (S'.destinations i).failed = true) ∧
    (S.main.finishing = true →
      (fanout cfg n).Halts (fun S' => ∃ ok, S'.main = .returned ok) S) := by
  have h := Inv.of_reachable hS
  refine ⟨fun i hi => ⟨(h.sound i hi).bytes_eq, (h.sound i hi).bytes_le⟩, fun ok hmain => ⟨?_, ?_⟩,
    ?_, ?_⟩
  · intro i hi hok
    have hsound := h.sound i hi
    have hexited : (S.destinations i).worker = .exited := by
      refine h.joined i hi ?_
      rw [hmain]
      exact hi
    -- a thread that has not failed leaves only with an empty queue
    have hqueue : (S.destinations i).queue = [] := by
      rcases hsound.exited hexited with hfailed | ⟨-, hqueue⟩
      · rw [hok] at hfailed
        cases hfailed
      · exact hqueue
    have hflow := hsound.flow hok (by rw [hexited]; rfl)
    have hoffered := h.offered i hi
    rw [hmain] at hoffered
    rw [hexited, hqueue] at hflow
    simpa [Worker.inFlight, Main.pending, ← hoffered] using hflow
  · have hverdict := h.verdict
    rw [hmain] at hverdict
    refine hverdict.trans (forall₂_congr fun i hi => ?_)
    exact ⟨fun hok => hok hi, fun hok _ => hok⟩
  · intro S' hleads i
    exact hleads.invariant (P := fun S' => (S.destinations i).failed = true →
      (S'.destinations i).failed = true) (fun hbefore hstep hfailed =>
        State.failed_of_step (State.step_stepped hstep) (hbefore hfailed)) id
  · intro hcalled
    -- after the call of `finish` nothing is enqueued, and every step uses up work
    refine Machine.Halts.of_measure (Q := fun S => Inv cfg n S ∧ S.main.finishing = true)
      (State.left n) ?_ ?_ ⟨h, hcalled⟩
    · rintro S a S' ⟨h, hcalled⟩ hstep
      have hstepped := State.step_stepped hstep
      obtain ⟨hcalled', hless⟩ := State.left_of_step hcalled hstepped
      exact ⟨⟨h.step hstepped, hcalled'⟩, hless⟩
    · rintro S ⟨h, hcalled⟩
      exact State.exists_step h hcalled

/-- Every batch twice. -/
def twice : Config := { Config.standard ⟨1, 1⟩ with repeats := 2 }

/-- One batch for two destinations, of which the second fails. -/
def secondFails : List (Action twice) :=
  [.enqueue ⟨[[1], [2]], by decide⟩, .main, .main, .main,
    .worker 0 .unknown, .worker 1 .unknown, .worker 1 .unknown, .finish, .main, .main, .main,
    .worker 1 .unknown,
    .worker 0 (.datagram [.took 1 true, .interrupted, .took 1 true, .took 2 true]),
    .worker 0 .unknown, .main, .main, .main]

theorem healthy_destination_served : ∃ S : State,
    (fanout twice 2).run (fanout twice 2).start secondFails = some S ∧ S.main = .returned false ∧
      (S.destinations 0).sent = [[1], [2], [1], [2]] ∧ (S.destinations 1).failed = true := by
  obtain ⟨S, hS⟩ := Option.isSome_iff_exists.mp
    (by decide +kernel : ((fanout twice 2).run (fanout twice 2).start secondFails).isSome = true)
  have hmain : S.main = .returned false := Machine.read_run hS State.main (by decide +kernel)
  have hok : (S.destinations 0).failed = false :=
    Machine.read_run hS (fun S => (S.destinations 0).failed) (by decide +kernel)
  have hfailed : (S.destinations 1).failed = true :=
    Machine.read_run hS (fun S => (S.destinations 1).failed) (by decide +kernel)
  have hbatches : S.batches = [[[1], [2]]] := Machine.read_run hS State.batches (by decide +kernel)
  have hsent := ((fanout_isolates twice 2 ⟨secondFails, hS⟩).2.1 false hmain).1 0 (by decide) hok
  rw [hbatches] at hsent
  exact ⟨S, hS, hmain, hsent, hfailed⟩

end Sender
end PulseFanout
