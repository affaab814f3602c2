import PulseFanout.Sender.Fanout

/-!
# What a destination reports (`Fanout::finish`)

`finish` prints for each destination how many packets it was sent and how many frames were rejected.
A batch is counted packet by packet while it is flushed, and frame by frame if the flush fails; so
the frames of a failed flush that went out before the failure are in both numbers. `Counted` is the
account of a destination with that excess, `Destination.recounted`, written out; it is exact in
every interleaving (`reported_exactly`).

The excess is nothing if a socket that takes the first frame of a batch takes all of it.
`Outcome.whole` reads that off the answers of the system calls, and is no more than is needed
(`whole_iff`); `reported_once` is the account of the runs in which all answers are such.
-/

namespace PulseFanout
namespace Sender

open Framework

/-! ### Answers that do not break off -/

/-- Of `n` frames to a stream none fails after one was counted. -/
def wholeFrames (durableAcks : Bool) : (started : Bool) → (n : ℕ) → List FrameAnswer → Bool
  | _, 0, _ => true
  | started, _ + 1, [] => !started
  | started, n + 1, answer :: answers =>
    if answer.sent && (!durableAcks || answer.acked) then wholeFrames durableAcks true n answers
    else !started

/-- Of `n` messages to a datagram socket none fails after one was counted; a short one is counted
itself. -/
def wholeMessages : (started : Bool) → (n : ℕ) → List MmsgAnswer → Bool
  | _, 0, _ => true
  | started, _ + 1, [] => !started
  | started, n + 1, answer :: answers =>
    match answer with
    | .interrupted => wholeMessages started (n + 1) answers
    | .failed => !started
    | .took 0 _ => !started
    | .took (_ + 1) false => false
    | .took (m + 1) true => wholeMessages true (n - m) answers

/-- A batch of `n` frames is taken whole, or its first frame fails. -/
def Outcome.whole (cfg : Config) (n : ℕ) : Outcome → Bool
  | .unknown => true
  | .stream answers => wholeFrames cfg.durableAcks false n answers
  | .datagram answers => wholeMessages false n answers

theorem wholeFrames_iff {durableAcks started : Bool} {frames : List Datagram}
    {answers : List FrameAnswer} :
    wholeFrames durableAcks started frames.length answers = true ↔
      (sendFrames durableAcks frames answers).2 = true ∨
        started = false ∧ framePackets durableAcks frames answers = 0 := by
  induction frames generalizing started answers with
  | nil => exact iff_of_true (by simp [wholeFrames]) (.inl (by simp [sendFrames]))
  | cons frame frames ih =>
    cases answers with
    | nil => simp [wholeFrames, sendFrames, framePackets]
    | cons answer answers =>
      obtain ⟨sent, acked⟩ := answer
      simp only [List.length_cons, wholeFrames, sendFrames, framePackets]
      cases sent with
      | false => simp
      | true =>
        cases hacked : durableAcks && !acked with
        | true =>
          obtain ⟨rfl, hno⟩ := Bool.and_eq_true_iff.mp hacked
          rw [Bool.not_eq_true'] at hno
          simp [hno]
        | false =>
          have hgood : (true && (!durableAcks || acked)) = true := by
            cases durableAcks <;> simp_all
          rw [if_pos hgood, ih]
          simp

theorem wholeMessages_iff {started : Bool} {frames : List Datagram} {answers : List MmsgAnswer} :
    wholeMessages started frames.length answers = true ↔
      (sendMessages frames answers).2.2 = true ∨
        started = false ∧ (sendMessages frames answers).1 = [] := by
  induction answers generalizing started frames with
  | nil =>
    cases frames with
    | nil => simp [wholeMessages, sendMessages]
    | cons => simp [wholeMessages, sendMessages]
  | cons answer answers ih =>
    cases frames with
    | nil => simp [wholeMessages, sendMessages]
    | cons frame frames =>
      rw [List.length_cons]
      cases answer with
      | interrupted => exact @ih started (frame :: frames)
      | failed => simp [wholeMessages, sendMessages]
      | took n whole =>
        cases n with
        | zero => simp [wholeMessages, sendMessages]
        | succ n =>
          cases whole with
          | false => simp [wholeMessages, sendMessages]
          | true =>
            -- something was taken, so from here on only a complete flush is whole
            have hrest := @ih true (frames.drop n)
            rw [List.length_drop] at hrest
            simp only [wholeMessages, sendMessages, hrest]
            simp

theorem transmission_of_once {cfg : Config} (hcfg : cfg.repeats = 1) (frames : List Datagram) :
    transmission cfg frames = frames := by
  rw [transmission, hcfg, List.replicate_one, List.flatten_singleton]

theorem repeatMessages_one (frames : List Datagram) (answers : List MmsgAnswer) :
    repeatMessages frames 1 answers =
      ((sendMessages frames answers).1, (sendMessages frames answers).2.2) := by
  rw [repeatMessages]
  generalize sendMessages frames answers = first
  obtain ⟨sent, answers, ok⟩ := first
  cases ok with
  | false => rfl
  | true => simp [repeatMessages]

theorem flushBatchDirect_ok (cfg : Config) {frames : List Datagram} (hne : frames ≠ [])
    (outcome : Outcome) :
    (flushBatchDirect cfg frames [outcome]).2 = (flushSocket cfg frames outcome).2 := by
  rw [flushBatchDirect, if_neg hne, flushSockets]
  generalize flushSocket cfg frames outcome = result
  obtain ⟨sent, ok⟩ := result
  cases ok <;> rfl

/-- **Answers are whole** exactly if the flush succeeds or has counted nothing. -/
theorem Outcome.whole_iff {cfg : Config} (hcfg : cfg.repeats = 1) (frames : List Datagram)
    (outcome : Outcome) :
    outcome.whole cfg frames.length = true ↔
      (flushBatchDirect cfg frames [outcome]).2 = true ∨ flushPackets cfg frames outcome = 0 := by
  rcases eq_or_ne frames [] with rfl | hne
  · cases outcome <;> simp [whole, wholeFrames, wholeMessages, flushBatchDirect]
  rw [flushBatchDirect_ok cfg hne]
  cases outcome with
  | unknown => exact iff_of_true rfl (.inr rfl)
  | stream answers =>
    rw [whole, wholeFrames_iff, flushSocket, flushPackets, transmission_of_once hcfg]
    simp
  | datagram answers =>
    rw [whole, wholeMessages_iff, flushSocket, flushPackets, hcfg, repeatMessages_one]
    simp

theorem framePackets_of_ok {durableAcks : Bool} {frames : List Datagram}
    {answers : List FrameAnswer} (h : (sendFrames durableAcks frames answers).2 = true) :
    framePackets durableAcks frames answers = frames.length := by
  induction frames generalizing answers with
  | nil => simp only [framePackets, List.length_nil]
  | cons frame frames ih =>
    cases answers with
    | nil => cases h
    | cons answer answers =>
      unfold sendFrames at h
      unfold framePackets
      split at h
      · cases h
      next hsent =>
      split at h
      · cases h
      next hacked =>
      rw [if_neg hsent, if_neg hacked, ih h, List.length_cons]

/-- A flush that succeeds has counted the whole batch. -/
theorem flushPackets_of_ok {cfg : Config} (hcfg : cfg.repeats = 1) {frames : List Datagram}
    {outcome : Outcome} (h : (flushBatchDirect cfg frames [outcome]).2 = true) :
    flushPackets cfg frames outcome = frames.length := by
  have hsocket : frames ≠ [] → (flushSocket cfg frames outcome).2 = true := by
    intro hne
    rwa [flushBatchDirect_ok cfg hne] at h
  cases outcome with
  | unknown =>
    -- an empty batch does not look at the socket
    by_contra hne
    refine Bool.false_ne_true (hsocket ?_)
    rintro rfl
    exact hne rfl
  | stream answers =>
    rw [flushPackets, transmission_of_once hcfg]
    refine framePackets_of_ok ?_
    rcases eq_or_ne frames [] with rfl | hne
    · simp only [sendFrames]
    · have hsent := hsocket hne
      rwa [flushSocket, transmission_of_once hcfg] at hsent
  | datagram answers =>
    rw [flushPackets, hcfg, repeatMessages_one]
    refine congrArg List.length (sendMessages_of_ok ?_)
    rcases eq_or_ne frames [] with rfl | hne
    · cases answers <;> rfl
    · have hsent := hsocket hne
      rwa [flushSocket, hcfg, repeatMessages_one] at hsent

/-! ### The account of a destination -/

/-- The frames of several batches. -/
def frameCount (batches : List (List Datagram)) : ℕ := (batches.map List.length).sum

/-- The frames a thread has taken off the queue and not yet reported on. -/
def Worker.held : Worker → ℕ
  | .sending work => work.frames.length
  | .failing work => work.frames.length
  | _ => 0

def Destination.queued (d : Destination) : ℕ := (d.queue.map fun work => work.frames.length).sum

/-- Every frame that was offered is in one place, but for those counted twice. -/
structure Counted (d : Destination) : Prop where
  emptied : d.failed = true → d.queue = []
  account : d.packets + d.rejected + d.worker.held + d.queued = frameCount d.offered + d.recounted

namespace Counted

variable {cfg : Config} {d d' : Destination} {outcome : Outcome}

theorem start : Counted {} := ⟨fun _ => rfl, rfl⟩

/-- **`enqueue` comes by.** -/
theorem offer (h : Counted d) (cfg : Config) (batch : List Datagram) :
    Counted (d.offer cfg batch) := by
  have haccount := h.account
  have hoffered : frameCount (d.offered ++ [batch]) = frameCount d.offered + batch.length := by
    rw [frameCount, List.map_append, List.sum_append]
    rfl
  unfold Destination.offer
  dsimp only
  split
  · -- already failed: the batch is rejected
    refine ⟨h.emptied, ?_⟩
    change d.packets + (d.rejected + batch.length) + d.worker.held + d.queued =
      frameCount (d.offered ++ [batch]) + d.recounted
    omega
  next hok =>
  split
  · -- no room: so are the batch and the queue
    refine ⟨fun _ => rfl, ?_⟩
    change d.packets + (d.rejected + batch.length + d.queued) + d.worker.held + 0 =
      frameCount (d.offered ++ [batch]) + d.recounted
    omega
  · refine ⟨fun hfailed => absurd hfailed hok, ?_⟩
    have hqueued : ((d.queue ++ [(⟨batch, byteCount batch, rfl⟩ : Work)]).map
        fun work => work.frames.length).sum = d.queued + batch.length := by
      rw [List.map_append, List.sum_append]
      rfl
    change d.packets + d.rejected + d.worker.held + _ =
      frameCount (d.offered ++ [batch]) + d.recounted
    unfold Destination.queued
    dsimp only
    rw [hqueued, hoffered]
    omega

theorem close (h : Counted d) : Counted { d with done := true } := ⟨h.emptied, h.account⟩

/-- **One step of the thread.** -/
theorem move (h : Counted d) (hcfg : cfg.repeats = 1) (hmove : d.move cfg outcome = some d') :
    Counted d' := by
  have haccount := h.account
  unfold Destination.move at hmove
  cases hworker : d.worker with
  | waiting =>
    rw [hworker] at hmove haccount
    dsimp only at hmove
    split at hmove
    · cases hmove
      exact ⟨h.emptied, haccount⟩
    next hstay =>
    split at hmove
    · cases hmove
    next work queue hqueue =>
    cases hmove
    -- the thread does not take work from a failed destination
    refine ⟨fun hfailed => absurd (show d.failed = true from hfailed) ?_, ?_⟩
    · intro hfailed
      rw [hfailed] at hstay
      exact hstay rfl
    · unfold Destination.queued at haccount ⊢
      rw [hqueue, List.map_cons, List.sum_cons] at haccount
      dsimp only [Worker.held] at haccount ⊢
      omega
  | sending work =>
    rw [hworker] at hmove haccount
    cases hmove
    refine ⟨h.emptied, ?_⟩
    change _ + d.rejected + _ + d.queued = frameCount d.offered + _
    dsimp only
    dsimp only [Worker.held] at haccount
    split
    · next hok =>
      -- what was held is now counted
      have hpackets := flushPackets_of_ok hcfg hok
      dsimp only [Worker.held]
      omega
    · -- it is still held, and what was counted of it is in excess
      dsimp only [Worker.held]
      omega
  | failing work =>
    rw [hworker] at hmove haccount
    cases hmove
    refine ⟨fun _ => rfl, ?_⟩
    change d.packets + (d.rejected + work.frames.length + d.queued) + 0 + 0 =
      frameCount d.offered + d.recounted
    dsimp only [Worker.held] at haccount
    omega
  | exited =>
    rw [hworker] at hmove
    cases hmove

end Counted

/-! ### Whole runs -/

section Runs

variable {cfg : Config} {n : ℕ} {S S' : State}

theorem counted_of_reachable (hcfg : cfg.repeats = 1) (hS : (fanout cfg n).Reachable S) :
    ∀ i < n, Counted (S.destinations i) := by
  refine hS.invariant (P := fun S => ∀ i < n, Counted (S.destinations i))
    (fun _ _ => Counted.start) ?_
  intro S a S' h hstep
  cases State.step_stepped hstep with
  | worker k outcome d hk hmove =>
    exact State.forall_put (P := fun _ d => Counted d) ((h k hk).move hcfg hmove)
      fun i hi _ => h i hi
  | offer batch k hk _ =>
    exact State.forall_put (P := fun _ d => Counted d) ((h k hk).offer cfg batch)
      fun i hi _ => h i hi
  | close k hk _ =>
    exact State.forall_put (P := fun _ d => Counted d) (h k hk).close fun i hi _ => h i hi
  | enqueue => exact h
  | finish => exact h
  | enqueued => exact h
  | closed => exact h
  | join => exact h
  | joined => exact h

/-- **What is reported when `finish` returns**: every frame once, and those that were counted in a
flush that failed once more. -/
theorem reported_exactly (hcfg : cfg.repeats = 1) (hS : (fanout cfg n).Reachable S) {ok : Bool}
    (hmain : S.main = .returned ok) :
    ∀ i < n, (S.destinations i).packets + (S.destinations i).rejected =
      frameCount S.batches + (S.destinations i).recounted := by
  intro i hi
  have hinv := Inv.of_reachable hS
  have hcounted := counted_of_reachable hcfg hS i hi
  have hexited : (S.destinations i).worker = .exited := by
    refine hinv.joined i hi ?_
    rw [hmain]
    exact hi
  have hqueue : (S.destinations i).queue = [] := by
    rcases (hinv.sound i hi).exited hexited with hfailed | ⟨-, hqueue⟩
    · exact hcounted.emptied hfailed
    · exact hqueue
  have hoffered := hinv.offered i hi
  rw [hmain] at hoffered
  simp only [Main.pending, List.append_nil] at hoffered
  have haccount := hcounted.account
  rw [hexited, Destination.queued, hqueue, hoffered] at haccount
  exact haccount

/-- The condition on a step: the socket of a flush takes the batch whole, or nothing of it. -/
def unbroken (cfg : Config) (S : State) : Action cfg → Bool
  | .worker i outcome =>
    match (S.destinations i).worker with
    | .sending work => outcome.whole cfg work.frames.length
    | _ => true
  | _ => true

theorem recounted_offer (cfg : Config) (batch : List Datagram) (d : Destination) :
    (d.offer cfg batch).recounted = d.recounted := by
  unfold Destination.offer
  dsimp only
  split
  · rfl
  split <;> rfl

/-- Only a flush counts packets. -/
theorem recounted_advance (h : S.advance cfg n = some S')
    (hS : ∀ i < n, (S.destinations i).recounted = 0) :
    ∀ i < n, (S'.destinations i).recounted = 0 := by
  unfold State.advance at h
  split at h
  · cases h
  · split at h
    · next k _ hk =>
      cases h
      refine State.forall_put (P := fun _ d => d.recounted = 0) ?_ fun i hi _ => hS i hi
      rw [recounted_offer]
      exact hS k hk
    · cases h
      exact hS
  · split at h
    · next k _ hk =>
      cases h
      exact State.forall_put (P := fun _ d => d.recounted = 0) (hS k hk) fun i hi _ => hS i hi
    · cases h
      exact hS
  · split at h
    · split at h
      · cases h
        exact hS
      · cases h
    · cases h
      exact hS
  · cases h

theorem recounted_move {d d' : Destination} {outcome : Outcome} (hcfg : cfg.repeats = 1)
    (hwhole : ∀ work, d.worker = .sending work → outcome.whole cfg work.frames.length = true)
    (hmove : d.move cfg outcome = some d') (hd : d.recounted = 0) : d'.recounted = 0 := by
  unfold Destination.move at hmove
  cases hworker : d.worker with
  | waiting =>
    rw [hworker] at hmove
    dsimp only at hmove
    split at hmove
    · cases hmove
      exact hd
    split at hmove
    · cases hmove
    · cases hmove
      exact hd
  | sending work =>
    rw [hworker] at hmove
    cases hmove
    dsimp only
    split
    · exact hd
    next hfails =>
    -- a flush that fails has counted no packet
    rcases (Outcome.whole_iff hcfg work.frames outcome).mp (hwhole work hworker) with hok | hnone
    · exact absurd hok hfails
    · rw [hd, hnone]
  | failing work =>
    rw [hworker] at hmove
    cases hmove
    exact hd
  | exited =>
    rw [hworker] at hmove
    cases hmove

theorem recounted_of_unbroken (hcfg : cfg.repeats = 1)
    (hS : ((fanout cfg n).only fun S a => unbroken cfg S a = true).Reachable S) :
    ∀ i < n, (S.destinations i).recounted = 0 := by
  refine hS.invariant (P := fun S => ∀ i < n, (S.destinations i).recounted = 0)
    (fun _ _ => rfl) ?_
  intro S a S' h honly
  obtain ⟨hunbroken, hstep⟩ := Machine.only_step honly
  cases a with
  | enqueue batch =>
    simp only [fanout, State.step] at hstep
    split at hstep
    · cases hstep
      exact h
    · cases hstep
  | finish =>
    simp only [fanout, State.step] at hstep
    split at hstep
    · cases hstep
      exact h
    · cases hstep
  | main => exact recounted_advance hstep h
  -- the condition is about this step only: the flush of a worker that is sending
  | worker k outcome =>
    simp only [fanout, State.step] at hstep
    split at hstep
    · next hk =>
      obtain ⟨d, hmove, rfl⟩ := Option.map_eq_some_iff.mp hstep
      refine State.forall_put (P := fun _ d => d.recounted = 0) ?_ fun i hi _ => h i hi
      refine recounted_move hcfg (fun work hworker => ?_) hmove (h k hk)
      simpa only [unbroken, hworker] using hunbroken
    · cases hstep

end Runs

/-- **Every frame is reported once**, as sent or as rejected, in every run in which no flush fails
after a part of its batch was counted: whatever the batches, the interleaving and the failures, and
also if a queue overflows while a batch is in flight. -/
theorem reported_once (cfg : Config) (hcfg : cfg.repeats = 1) (n : ℕ) {S : State} {ok : Bool}
    (hS : ((fanout cfg n).only fun S a => unbroken cfg S a = true).Reachable S)
    (hmain : S.main = .returned ok) :
    ∀ i < n, (S.destinations i).packets + (S.destinations i).rejected = frameCount S.batches := by
  intro i hi
  rw [reported_exactly hcfg hS.of_only hmain i hi, recounted_of_unbroken hcfg hS i hi, Nat.add_zero]

/-- A batch of two frames for two destinations. The first takes it; the second is a stream that
answers as given. -/
def pairSent (answers : List FrameAnswer) : List (Action (Config.standard ⟨1, 1⟩)) :=
  [.enqueue ⟨[[1], [2]], by decide⟩, .main, .main, .main,
    .worker 0 .unknown, .worker 1 .unknown, .worker 1 (.stream answers), .worker 1 .unknown,
    .finish, .main, .main, .main,
    .worker 0 (.datagram [.took 1 true, .interrupted, .took 1 true]), .worker 0 .unknown,
    .main, .main, .main]

theorem refused_batch_reported_once : ∃ S : State,
    S.main = .returned false ∧ (S.destinations 1).failed = true ∧
      (S.destinations 0).packets + (S.destinations 0).rejected = 2 ∧
      (S.destinations 1).packets + (S.destinations 1).rejected = 2 := by
  let M := (fanout (Config.standard ⟨1, 1⟩) 2).only fun S a => unbroken _ S a = true
  obtain ⟨S, hS⟩ := Option.isSome_iff_exists.mp
    (by decide +kernel : (M.run M.start (pairSent [⟨false, false⟩])).isSome = true)
  have hmain : S.main = .returned false := Machine.read_run hS State.main (by decide +kernel)
  have hfailed : (S.destinations 1).failed = true :=
    Machine.read_run hS (fun S => (S.destinations 1).failed) (by decide +kernel)
  have hbatches : S.batches = [[[1], [2]]] := Machine.read_run hS State.batches (by decide +kernel)
  have honce := reported_once (Config.standard ⟨1, 1⟩) rfl 2 ⟨_, hS⟩ hmain
  rw [hbatches] at honce
  exact ⟨S, hmain, hfailed, honce 0 (by decide), honce 1 (by decide)⟩

/-- **A flush that breaks off is reported with more frames than it had**: the first frame of the
batch goes out and is counted, the second fails, and both are rejected. -/
theorem broken_flush_recounted :
    ¬ ∀ (cfg : Config), cfg.repeats = 1 → ∀ (n : ℕ) (S : State) (ok : Bool),
      (fanout cfg n).Reachable S → S.main = .returned ok →
      ∀ i < n, (S.destinations i).packets + (S.destinations i).rejected =
        frameCount S.batches := by
  intro h
  let M := fanout (Config.standard ⟨1, 1⟩) 2
  obtain ⟨S, hS⟩ := Option.isSome_iff_exists.mp
    (by decide +kernel :
      (M.run M.start (pairSent [⟨true, true⟩, ⟨false, false⟩])).isSome = true)
  have hmain : S.main = .returned false := Machine.read_run hS State.main (by decide +kernel)
  have hpackets : (S.destinations 1).packets = 1 :=
    Machine.read_run hS (fun S => (S.destinations 1).packets) (by decide +kernel)
  have hrejected : (S.destinations 1).rejected = 2 :=
    Machine.read_run hS (fun S => (S.destinations 1).rejected) (by decide +kernel)
  have hbatches : S.batches = [[[1], [2]]] := Machine.read_run hS State.batches (by decide +kernel)
  have honce := h (Config.standard ⟨1, 1⟩) rfl 2 S false ⟨_, hS⟩ hmain 1 (by decide)
  rw [hpackets, hrejected, hbatches] at honce
  exact absurd honce (by decide)

end Sender
end PulseFanout
