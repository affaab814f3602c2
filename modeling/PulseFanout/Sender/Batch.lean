import Mathlib.Data.Rat.Defs
import PulseFanout.Fec.Encoder
import PulseFanout.Receiver.Multiplex

/-!
# Batches and how they are flushed (`sender.cpp`)

A batch holds the datagrams that go out together. `flush_batch_direct` sends them to each socket in
turn, `repeat` times: over a stream socket frame by frame, with an acknowledgement after each if the
configuration asks for them, over a datagram socket with as many calls of `sendmmsg` as it takes,
each of which may accept some of the datagrams, be interrupted or fail.

What the system calls answer is an argument (`Outcome`), one for each socket; a list of answers that
ends too early stands for a failure. The functions return what went out besides whether all of it
did. The result used elsewhere is `flushSocket_of_ok`: a flush that succeeds has sent every frame of
the batch, in order, `repeat` times over.
-/

namespace PulseFanout
namespace Sender

open Framework

/-- A reading of the steady clock, or a span of time, in nanoseconds. -/
abbrev Nanos := BitVec 64

/-- The fields of `Config` that `run` uses, with what `parse_args` checks of them. A percentage is
a rational number, as every `double` is. -/
structure Config where
  key : Multiplex.Key
  durableAcks : Bool := false
  /-- `destinations.size()` -/
  destinations : ℕ := 1
  /-- The number of frames to send; zero is no limit. -/
  count : ℕ := 0
  idleMs : BitVec 64 := 2000
  /-- `repeat` -/
  repeats : ℕ := 1
  queueBytes : ℕ := 4 * 1024 * 1024
  batchSize : ℕ := 32
  batchTimeoutUs : BitVec 64 := 50
  fecK : ℕ := 0
  fecParity : ℕ := 1
  fecTimeoutUs : BitVec 64 := 200
  testDropPct : ℚ := 0
  testReorderPct : ℚ := 0
  testReorderDelayUs : BitVec 64 := 0
  batchSize_range : 1 ≤ batchSize ∧ batchSize ≤ 1024 := by decide
  fecK_le : fecK ≤ Fec.kMaxGeneration := by decide
  fecParity_range : 0 < fecParity ∧ fecParity ≤ 16 := by decide

/-- The configuration that sets nothing but the stream. -/
def Config.standard (key : Multiplex.Key) : Config where
  key := key

/-- What is sent as one datagram, or as one frame of a stream. -/
abbrev Datagram := List Byte

/-! ### One socket -/

/-- How a stream socket takes a frame: what `send_frame` returns, and whether the byte one came
back. -/
structure FrameAnswer where
  sent : Bool
  acked : Bool
deriving DecidableEq, Repr

/-- How `sendmmsg` returns. -/
inductive MmsgAnswer
  /-- It took `n` messages, all of them whole or not. -/
  | took (n : ℕ) (whole : Bool)
  /-- `EINTR`, with no stop requested. -/
  | interrupted
  | failed
deriving DecidableEq, Repr

/-- What the system calls of a flush to one socket answer. -/
inductive Outcome
  /-- `getsockopt` fails. -/
  | unknown
  | stream (answers : List FrameAnswer)
  | datagram (answers : List MmsgAnswer)
deriving DecidableEq, Repr

/-- The loop over the frames of a stream socket. A frame that was sent and not acknowledged is out
all the same. -/
def sendFrames (durableAcks : Bool) : List Datagram → List FrameAnswer → List Datagram × Bool
  | [], _ => ([], true)
  | _ :: _, [] => ([], false)
  | frame :: frames, answer :: answers =>
    if !answer.sent then ([], false)
    else if durableAcks && !answer.acked then ([frame], false)
    else
      let rest := sendFrames durableAcks frames answers
      (frame :: rest.1, rest.2)

/-- The loop `while (offset < batch.size)`, on the messages from `offset` on; with the answers that
are left. -/
def sendMessages : List Datagram → List MmsgAnswer → List Datagram × List MmsgAnswer × Bool
  | [], answers => ([], answers, true)
  | _ :: _, [] => ([], [], false)
  | frame :: frames, answer :: answers =>
    match answer with
    | .interrupted => sendMessages (frame :: frames) answers
    | .failed => ([], answers, false)
    | .took 0 _ => ([], answers, false)
    | .took (n + 1) false => (frame :: frames.take n, answers, false)
    | .took (n + 1) true =>
      let rest := sendMessages (frames.drop n) answers
      (frame :: frames.take n ++ rest.1, rest.2)

/-- The loop over the repetitions of a datagram socket. -/
def repeatMessages (frames : List Datagram) : ℕ → List MmsgAnswer → List Datagram × Bool
  | 0, _ => ([], true)
  | n + 1, answers =>
    match sendMessages frames answers with
    | (sent, _, false) => (sent, false)
    | (sent, answers, true) =>
      let rest := repeatMessages frames n answers
      (sent ++ rest.1, rest.2)

/-- `frames`, as often as the configuration says. -/
def transmission (cfg : Config) (frames : List Datagram) : List Datagram :=
  (List.replicate cfg.repeats frames).flatten

/-- The body of the loop over the sockets. -/
def flushSocket (cfg : Config) (frames : List Datagram) : Outcome → List Datagram × Bool
  | .unknown => ([], false)
  | .stream answers => sendFrames cfg.durableAcks (transmission cfg frames) answers
  | .datagram answers => repeatMessages frames cfg.repeats answers

/-- `counters.packets` for a stream socket: a frame is counted after its acknowledgement. -/
def framePackets (durableAcks : Bool) : List Datagram → List FrameAnswer → ℕ
  | [], _ => 0
  | _ :: _, [] => 0
  | _ :: frames, answer :: answers =>
    if !answer.sent then 0
    else if durableAcks && !answer.acked then 0
    else framePackets durableAcks frames answers + 1

/-- What a flush of `frames` to one socket adds to `counters.packets`; for a datagram socket that is
what `sendmmsg` returns, also if a message went out short. -/
def flushPackets (cfg : Config) (frames : List Datagram) : Outcome → ℕ
  | .unknown => 0
  | .stream answers => framePackets cfg.durableAcks (transmission cfg frames) answers
  | .datagram answers => (repeatMessages frames cfg.repeats answers).1.length

theorem sendFrames_of_ok {durableAcks : Bool} {frames : List Datagram}
    {answers : List FrameAnswer} (h : (sendFrames durableAcks frames answers).2 = true) :
    (sendFrames durableAcks frames answers).1 = frames := by
  induction frames generalizing answers with
  | nil => simp only [sendFrames]
  | cons frame frames ih =>
    cases answers with
    | nil => cases h
    | cons answer answers =>
      unfold sendFrames at h ⊢
      split at h
      · cases h
      next hsent =>
      split at h
      · cases h
      next hacked =>
      rw [if_neg hsent, if_neg hacked]
      exact congrArg (frame :: ·) (ih h)

theorem sendMessages_of_ok {frames : List Datagram} {answers : List MmsgAnswer}
    (h : (sendMessages frames answers).2.2 = true) : (sendMessages frames answers).1 = frames := by
  induction answers generalizing frames with
  | nil =>
    cases frames with
    | nil => simp only [sendMessages]
    | cons => cases h
  | cons answer answers ih =>
    cases frames with
    | nil => simp only [sendMessages]
    | cons frame frames =>
      cases answer with
      | interrupted => exact ih h
      | failed => cases h
      | took n whole =>
        cases n with
        | zero => cases h
        | succ n =>
          cases whole with
          | false => cases h
          | true =>
            change frame :: frames.take n ++ (sendMessages (frames.drop n) answers).1 = _
            rw [ih h, List.cons_append, List.take_append_drop]

theorem repeatMessages_of_ok {frames : List Datagram} {n : ℕ} {answers : List MmsgAnswer}
    (h : (repeatMessages frames n answers).2 = true) :
    (repeatMessages frames n answers).1 = (List.replicate n frames).flatten := by
  induction n generalizing answers with
  | zero => rfl
  | succ n ih =>
    have hfirst : (sendMessages frames answers).2.2 = true →
        (sendMessages frames answers).1 = frames := sendMessages_of_ok
    unfold repeatMessages at h ⊢
    generalize sendMessages frames answers = first at h hfirst ⊢
    obtain ⟨sent, answers, ok⟩ := first
    cases ok with
    | false => cases h
    | true =>
      obtain rfl : sent = frames := hfirst rfl
      rw [List.replicate_succ, List.flatten_cons]
      exact congrArg (sent ++ ·) (ih h)

/-- **A flush that succeeds** has sent the whole batch. -/
theorem flushSocket_of_ok {cfg : Config} {frames : List Datagram} {outcome : Outcome}
    (h : (flushSocket cfg frames outcome).2 = true) :
    (flushSocket cfg frames outcome).1 = transmission cfg frames := by
  cases outcome with
  | unknown => cases h
  | stream answers => exact sendFrames_of_ok h
  | datagram answers => exact repeatMessages_of_ok h

/-! ### All of them -/

/-- The loop over the sockets, with what went out to each that was reached. -/
def flushSockets (cfg : Config) (frames : List Datagram) :
    List Outcome → List (List Datagram) × Bool
  | [] => ([], true)
  | outcome :: outcomes =>
    match flushSocket cfg frames outcome with
    | (sent, false) => ([sent], false)
    | (sent, true) =>
      let rest := flushSockets cfg frames outcomes
      (sent :: rest.1, rest.2)

/-- `flush_batch_direct` -/
def flushBatchDirect (cfg : Config) (frames : List Datagram) (outcomes : List Outcome) :
    List (List Datagram) × Bool :=
  if frames = [] then ([], true) else flushSockets cfg frames outcomes

/-- A flush to a single socket. -/
theorem flushBatchDirect_of_ok {cfg : Config} {frames : List Datagram} {outcome : Outcome}
    (h : (flushBatchDirect cfg frames [outcome]).2 = true) :
    (flushBatchDirect cfg frames [outcome]).1.flatten = transmission cfg frames := by
  unfold flushBatchDirect at h ⊢
  split
  · next hnil =>
    rw [hnil, transmission, List.flatten_nil]
    exact (List.flatten_eq_nil_iff.mpr fun l hl => (List.mem_replicate.mp hl).2).symm
  · next hne =>
    rw [if_neg hne] at h
    have hsent : (flushSocket cfg frames outcome).2 = true →
        (flushSocket cfg frames outcome).1 = transmission cfg frames := flushSocket_of_ok
    unfold flushSockets at h ⊢
    generalize flushSocket cfg frames outcome = result at h hsent ⊢
    obtain ⟨sent, ok⟩ := result
    cases ok with
    | false => cases h
    | true => exact (List.append_nil sent).trans (hsent rfl)

end Sender
end PulseFanout
