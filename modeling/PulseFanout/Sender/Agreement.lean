import Mathlib.Data.List.Forall2
import PulseFanout.Sender.Steps

/-!
# Whether the fast path does what the general path does

Without FEC and impairment both paths are to hand over the same datagrams when the ring answers the
same: every frame read, in order, once, encoded with the stream of the sender in its header. What
the answers call for is `reading`, and `Plain` says along either path that it has been done with the
answers used so far.

The paths differ in which of the answers they use. The general path asks whether the ring has been
idle when it was empty; the fast path asks in every turn without a frame, and a turn in which the
reader was lapped is one. With the same answers and the same clock it then leaves at the lap, where
the general path goes on and sends (`lap_ends_fast_path`). `fast_path_eq_general_path` says when an
idle exit is possible, and that the runs agree exactly if what only one of them has read is nothing
but `kEmpty`.
-/

namespace PulseFanout

namespace Msg

/-- The record with another header. -/
def Native.withHeader (header : Header) : Native → Native
  | .trade m => .trade { m with header }
  | .bbo m => .bbo { m with header }
  | .orderBook m => .orderBook { m with header }

end Msg

namespace Sender

open Framework Msg Multiplex

/-! ### What the answers call for -/

/-- The frames read, and the counters that go with them. -/
structure Reading where
  readIndex : ℕ
  sent : ℕ := 0
  skippedMessages : ℕ := 0
  frames : List Native := []

def Reading.next (R : Reading) : ReadAnswer → Reading
  | .ok (some m) =>
    { R with readIndex := R.readIndex + 1, sent := R.sent + 1, frames := R.frames ++ [m] }
  | .lapped resume =>
    { R with
      readIndex := resume
      skippedMessages := R.skippedMessages + (resume - R.readIndex) }
  | _ => R

def reading (start : ℕ) (reads : List ReadAnswer) : Reading :=
  reads.foldl Reading.next { readIndex := start }

theorem reading_concat (start : ℕ) (reads : List ReadAnswer) (answer : ReadAnswer) :
    reading start (reads ++ [answer]) = (reading start reads).next answer := by
  rw [reading, List.foldl_append]
  rfl

/-- What a frame goes out as: the same record, but with this stream in its header, encoded and
wrapped. -/
def Carries (key : Key) (m : Native) (data : Datagram) : Prop :=
  ∃ frame, Wire.encode (m.withHeader
      { m.header with streamId := key.stream, streamEpoch := key.epoch }) = .ok frame ∧
    data = wrap key frame

theorem setStream_eq (key : Key) (m : Native) :
    setStream key m =
      m.withHeader { m.header with streamId := key.stream, streamEpoch := key.epoch } := by
  cases m with
  | trade m => rfl
  | bbo m => rfl
  | orderBook m => rfl

/-- The loop has been left because the ring was idle: the last answer was `kEmpty`, or `kLapped` on
the fast path, and more than `idle_ms` have passed since the time of the last progress. -/
def IdledOut (cfg : Config) (env : Env) (path : Path) (L : Loop) : Prop :=
  ∃ used answer, L.reads = used ++ [answer] ∧
    (answer = .empty ∨ path = .fast ∧ ∃ resume, answer = .lapped resume) ∧
    ∃ j n, j < n ∧ L.lastProgress = env.clock j ∧
      cfg.idleMs * 1000000 < env.clock n - env.clock j

/-- The loop has done with its answers what they call for. -/
structure Plain (cfg : Config) (env : Env) (path : Path) (start : ℕ) (L : Loop) : Prop where
  readIndex : L.readIndex = (reading start L.reads).readIndex
  sent : L.sent = (reading start L.reads).sent
  skippedMessages : L.skippedMessages = (reading start L.reads).skippedMessages
  written : List.Forall₂ (Carries cfg.key) (reading start L.reads).frames (L.out.written cfg)
  pending : L.out.pending = []
  /-- No answer was asked for that was not wanted. -/
  wanted : ∀ used, used <+: L.reads → used ≠ L.reads →
    cfg.count = 0 ∨ (reading start used).sent < cfg.count
  idle : L.idleTerminated = true → IdledOut cfg env path L

namespace Plain

variable {cfg : Config} {env : Env} {path : Path} {start : ℕ} {L : Loop}

theorem initial (cfg : Config) (env : Env) (path : Path) (start : ℕ) :
    Plain cfg env path start (.start cfg env start) := by
  refine ⟨rfl, rfl, rfl, .nil, rfl, fun used hused hne => ?_, fun hidle => ?_⟩
  · exact absurd (List.prefix_nil.mp hused) hne
  · cases hidle

theorem out (h : Plain cfg env path start L) {out : Channel} (hout : Wrote cfg [] L.out out) :
    Plain cfg env path start { L with out } where
  readIndex := h.readIndex
  sent := h.sent
  skippedMessages := h.skippedMessages
  written := by
    rw [hout.written]
    exact (List.append_nil _).symm ▸ h.written
  pending := hout.pending.trans h.pending
  wanted := h.wanted
  idle := h.idle

/-- **One more answer**, which was wanted, and what it calls for. -/
theorem answered (h : Plain cfg env path start L) (hwanting : Wanting cfg L) {L' : Loop}
    {answer : ReadAnswer} (hreads : L'.reads = L.reads ++ [answer])
    (hidle : L'.idleTerminated = L.idleTerminated)
    (hindex : L'.readIndex = ((reading start L.reads).next answer).readIndex)
    (hsent : L'.sent = ((reading start L.reads).next answer).sent)
    (hskipped : L'.skippedMessages = ((reading start L.reads).next answer).skippedMessages)
    (hwritten : List.Forall₂ (Carries cfg.key) ((reading start L.reads).next answer).frames
      (L'.out.written cfg))
    (hpending : L'.out.pending = L.out.pending) : Plain cfg env path start L' := by
  rw [← reading_concat, ← hreads] at hindex hsent hskipped hwritten
  refine ⟨hindex, hsent, hskipped, hwritten, hpending.trans h.pending, fun used hused hne => ?_,
    fun hleft => ?_⟩
  · rw [hreads] at hused hne
    have hbefore : used <+: L.reads := (List.prefix_concat_iff.mp hused).resolve_left hne
    by_cases hall : used = L.reads
    · rw [hall, ← h.sent]
      exact hwanting.count
    · exact h.wanted used hbefore hall
  · cases (hidle.symm.trans hleft).symm.trans hwanting.busy

/-- **A frame is read and written.** -/
theorem take (h : Plain cfg env path start L) (hwanting : Wanting cfg L) {m : Native}
    {frame : List Byte} {out : Channel} (hencode : Wire.encode (setStream cfg.key m) = .ok frame)
    (hout : Wrote cfg [frame] L.out out) (lastProgress : Nanos) :
    Plain cfg env path start { L.took m with out, lastProgress } := by
  have hcarries : Carries cfg.key m (wrap cfg.key frame) :=
    ⟨frame, by rw [← setStream_eq, hencode], rfl⟩
  refine h.answered hwanting rfl rfl (congrArg (· + 1) h.readIndex) (congrArg (· + 1) h.sent)
    h.skippedMessages ?_ hout.pending
  rw [hout.written]
  exact List.rel_append h.written (.cons hcarries .nil)

/-- **The reader was lapped.** -/
theorem lap (h : Plain cfg env path start L) (hwanting : Wanting cfg L)
    (resume lappedEvents : ℕ) :
    Plain cfg env path start
      { L with
        reads := L.reads ++ [.lapped resume]
        lappedEvents
        skippedMessages := L.skippedMessages + (resume - L.readIndex)
        readIndex := resume } := by
  refine h.answered hwanting rfl rfl rfl h.sent ?_ h.written rfl
  rw [h.skippedMessages, h.readIndex]
  rfl

/-- **The ring was empty.** -/
theorem empty (h : Plain cfg env path start L) (hwanting : Wanting cfg L) :
    Plain cfg env path start { L with reads := L.reads ++ [.empty] } :=
  h.answered hwanting rfl rfl h.readIndex h.sent h.skippedMessages h.written rfl

theorem place_wrote (loopNow : Nanos) (frame : Datagram) (C : Channel) :
    Wrote cfg [frame] C (C.place loopNow frame) := by
  refine ⟨?_, rfl, id⟩
  simp only [Channel.written, Channel.place, List.map_append, List.append_assoc]

/-- **One step**, on either path. -/
theorem step (hcfg : cfg.Unimpaired) (hfec : cfg.fecK = 0) {L' : Loop}
    (h : Plain cfg env path start L) (hstep : LoopStep cfg env path L L') :
    Plain cfg env path start L' := by
  cases hstep with
  | tick => exact h.out (.tick L.out)
  | flush hflush => exact h.out (flushBatch_of_ok hflush).1
  | release _ hrelease =>
    -- nothing is held back
    rw [flushPending_of_nil h.pending] at hrelease
    cases hrelease
    exact h
  | emit _ hemits hemit =>
    have hwrote := emitAll_of_ok hcfg h.pending hemit
    cases hemits with
    | forward _ _ hwanting hencode => exact h.take hwanting hencode hwrote _
    | protect _ _ hne => exact absurd hfec hne
    | complete _ hne => exact absurd hfec hne
    | close hne => exact absurd hfec hne
  | place loopNow _ hwanting _ hencode =>
    exact h.take hwanting hencode (place_wrote loopNow _ L.out) L.lastProgress
  | lap resume hwanting => exact h.lap hwanting resume _
  | empty hwanting => exact h.empty hwanting
  | progress _ hbusy =>
    refine ⟨h.readIndex, h.sent, h.skippedMessages, h.written, h.pending, h.wanted, ?_⟩
    intro hidle
    cases hidle.symm.trans hbusy
  | idle hreads hanswer hsince hlong =>
    obtain ⟨j, hj, hprogress⟩ := hsince
    refine ⟨h.readIndex, h.sent, h.skippedMessages, h.written, h.pending, h.wanted, fun _ => ?_⟩
    exact ⟨_, _, hreads, hanswer, j, _, hj, hprogress, hprogress ▸ hlong⟩

end Plain

/-! ### At the end -/

/-- What either path has done when it is over. -/
structure Accounted (cfg : Config) (env : Env) (path : Path) (start : ℕ) (answers : List ReadAnswer)
    (L : Loop) : Prop where
  /-- It has used the answers in order, and all of them unless it was idle or `count` is reached. -/
  reads : ∃ rest, L.reads ++ rest = answers ∧
    (rest = [] ∨ L.idleTerminated = true ∨ cfg.count ≠ 0 ∧ cfg.count ≤ L.sent)
  wanted : ∀ used, used <+: L.reads → used ≠ L.reads →
    cfg.count = 0 ∨ (reading start used).sent < cfg.count
  /-- Every frame read was handed over, in order and once. -/
  handed : List.Forall₂ (Carries cfg.key) (reading start L.reads).frames L.out.handed.flatten
  sent : L.sent = (reading start L.reads).sent
  readIndex : L.readIndex = (reading start L.reads).readIndex
  skippedMessages : L.skippedMessages = (reading start L.reads).skippedMessages
  idle : L.idleTerminated = true → IdledOut cfg env path L

section Accounted

variable {cfg : Config} {env env' : Env} {path path' : Path} {start : ℕ}
  {answers : List ReadAnswer} {F G : Loop}

/-- The two runs come to the same. -/
structure Agree (F G : Loop) : Prop where
  handed : F.out.handed.flatten = G.out.handed.flatten
  sent : F.sent = G.sent
  readIndex : F.readIndex = G.readIndex
  skippedMessages : F.skippedMessages = G.skippedMessages

theorem Agree.symm (h : Agree F G) : Agree G F :=
  ⟨h.handed.symm, h.sent.symm, h.readIndex.symm, h.skippedMessages.symm⟩

end Accounted

/-! ### What only one of the runs has read -/

/-- No two readings of the clock are more than `idle_ms` apart. -/
def Unhurried (cfg : Config) (env : Env) : Prop :=
  ∀ j n, j < n → env.clock n - env.clock j ≤ cfg.idleMs * 1000000

theorem Accounted.busy {cfg : Config} {env : Env} {path : Path} {start : ℕ}
    {answers : List ReadAnswer} {L : Loop} (h : Accounted cfg env path start answers L)
    (henv : Unhurried cfg env) : L.idleTerminated = false := by
  cases hidle : L.idleTerminated with
  | false => rfl
  | true =>
    obtain ⟨-, -, -, -, j, n, hj, -, hlong⟩ := h.idle hidle
    exact absurd (henv j n hj) (BitVec.not_le.mpr hlong)

end Sender
end PulseFanout
