import Mathlib.Logic.Relation
import PulseFanout.Sender.FastPath
import PulseFanout.Sender.Impairment

/-!
# The steps of the sender's loop

What `run` does between two points at which nothing is half done, as one relation for both paths
(`LoopStep`): the clock is read, the batch is flushed, datagrams held back are released, a frame is
read and its datagrams are emitted, a generation is closed, a frame is put into the batch where it
lies, the reader is lapped, the ring is empty, the loop is left because it was so for too long.
`Emits` says which datagrams go out together and what becomes of the other variables; `Halted` is
how `run` returns from within, and what it was at.

Every function of the source is walked through once, here: it takes such steps (`Walks`), and so do
`generalPath` and `fastPath` as wholes (`generalPath_walks`, `fastPath_walks`). What a run keeps is
then shown step by step, by cases on `LoopStep`, with `Steps.keep`.
-/

namespace PulseFanout
namespace Sender

open Framework Msg Multiplex Fec Relation

/-- `kOk` with a frame that passes `validate_frame`, `kLapped` or `kEmpty`. -/
def ReadAnswer.Valid : ReadAnswer → Prop
  | .ok (some m) => validateFrame m.header m.size = true
  | .ok none => False
  | .lapped _ => True
  | .corrupt => False
  | .empty => True

/-- The way `run` takes. -/
inductive Path
  | general
  | fast

variable (cfg : Config) (env : Env)

/-! ### One step -/

/-- The loop goes on to read: it has not been left, and `count` frames are not reached. -/
structure Wanting (L : Loop) : Prop where
  busy : L.idleTerminated = false
  count : cfg.count = 0 ∨ L.sent < cfg.count

/-- One of the first `n` times the clock has shown. -/
def Env.Shown (n : ℕ) (time : Nanos) : Prop := ∃ j < n, time = env.clock j

/-- A frame has been read, and what goes with it is done. -/
def Loop.took (L : Loop) (m : Native) : Loop :=
  { L with
    reads := L.reads ++ [.ok (some m)]
    taken := L.taken ++ [(L.readIndex, m)]
    sent := L.sent + 1
    readIndex := L.readIndex + 1 }

/-- A generation is over. -/
def Loop.closed (L : Loop) (encoder : Encoder) : Loop :=
  { L with encoder := encoder.reset, fecGenId := L.fecGenId + 1, fecFirstNs := 0 }

/-- The datagrams that are emitted in one step of the general path, and the variables after it,
`out` apart. -/
inductive Emits (L : Loop) : List Datagram → Loop → Prop
  /-- A frame as it is. -/
  | forward {m : Native} {frame : List Byte} {loopNow : Nanos}
    (hnow : env.Shown L.out.ticks loopNow) (hfec : cfg.fecK = 0) (hwanting : Wanting cfg L)
    (hencode : Wire.encode (setStream cfg.key m) = .ok frame) :
    Emits L [frame] { L.took m with lastProgress := loopNow }
  /-- A frame as a data shard. -/
  | protect {m : Native} {frame : List Byte} {encoder : Encoder} {loopNow : Nanos}
    (fecFirstNs : Nanos) (hnow : env.Shown L.out.ticks loopNow) (hfec : cfg.fecK ≠ 0)
    (hwanting : Wanting cfg L) (hencode : Wire.encode (setStream cfg.key m) = .ok frame)
    (hadd : L.encoder.add frame = (true, encoder)) (hroom : encoder.full = false) :
    Emits L [dataDatagram L.fecGenId L.encoder.size cfg.fecK frame]
      { L.took m with encoder, fecFirstNs, lastProgress := loopNow }
  /-- The last frame of a generation, and the parity shards. -/
  | complete {m : Native} {frame : List Byte} {O : Origin} {loopNow : Nanos}
    (hnow : env.Shown L.out.ticks loopNow) (hfec : cfg.fecK ≠ 0) (hwanting : Wanting cfg L)
    (hencode : Wire.encode (setStream cfg.key m) = .ok frame)
    (hadd : L.encoder.add frame = (true, O.encoder)) (hgenId : O.genId = L.fecGenId)
    (hreason : O.reason = 0) :
    Emits L
      (dataDatagram L.fecGenId L.encoder.size cfg.fecK frame :: O.built.parity ::
        O.built.extraParity)
      { (L.took m).closed O.encoder with lastProgress := loopNow }
  /-- The parity shards of a generation that has waited too long, or is open in the end. -/
  | close {O : Origin} (hfec : cfg.fecK ≠ 0) (hencoder : O.encoder = L.encoder)
    (hgenId : O.genId = L.fecGenId) (hreason : O.reason.toNat ≤ 2) :
    Emits L (O.built.parity :: O.built.extraParity) (L.closed O.encoder)

/-- What a step of the loop can be. -/
inductive LoopStep (path : Path) (L : Loop) : Loop → Prop
  | tick : LoopStep path L { L with out := L.out.tick }
  | flush {out : Channel} (hflush : flushBatch cfg env L.out = (out, true)) :
    LoopStep path L { L with out }
  | release {now : Nanos} {all : Bool} {out : Channel} (hpath : path = .general)
    (hrelease : flushPending cfg env now all L.out = (out, true)) : LoopStep path L { L with out }
  | emit {datagrams : List Datagram} {L' : Loop} {out : Channel} (hpath : path = .general)
    (hemits : Emits cfg env L datagrams L')
    (hemit : emitAll cfg env datagrams L.out = (out, true)) : LoopStep path L { L' with out }
  /-- The fast path puts a frame into the batch. -/
  | place {m : Native} {frame : List Byte} (loopNow : Nanos) (hpath : path = .fast)
    (hwanting : Wanting cfg L) (hroom : L.out.batch.length < cfg.batchSize)
    (hencode : Wire.encode (setStream cfg.key m) = .ok frame) :
    LoopStep path L { L.took m with out := L.out.place loopNow frame }
  | lap (resume : ℕ) (hwanting : Wanting cfg L) :
    LoopStep path L
      { L with
        reads := L.reads ++ [.lapped resume]
        lappedEvents := L.lappedEvents + 1
        skippedMessages := L.skippedMessages + (resume - L.readIndex)
        readIndex := resume }
  | empty (hwanting : Wanting cfg L) : LoopStep path L { L with reads := L.reads ++ [.empty] }
  /-- The fast path has read something in a turn. -/
  | progress {loopNow : Nanos} (hnow : env.Shown L.out.ticks loopNow)
    (hbusy : L.idleTerminated = false) : LoopStep path L { L with lastProgress := loopNow }
  /-- The loop is left because the ring was idle: the last answer was `kEmpty`, or `kLapped` on the
  fast path, and there was no progress for more than `idle_ms`. -/
  | idle {used : List ReadAnswer} {answer : ReadAnswer} {n : ℕ}
    (hreads : L.reads = used ++ [answer])
    (hanswer : answer = .empty ∨ path = .fast ∧ ∃ resume, answer = .lapped resume)
    (hsince : env.Shown n L.lastProgress)
    (hidle : cfg.idleMs * 1000000 < env.clock n - L.lastProgress) :
    LoopStep path L { L with idleTerminated := true }

/-- Steps one after the other. -/
def Steps (path : Path) : Loop → Loop → Prop := ReflTransGen (LoopStep cfg env path)

/-- How `run` returns from within its loop, having come as far as `L`. -/
inductive Halted (path : Path) (all : List ReadAnswer) (L : Loop) : Exit → Loop → Prop
  | flush {out : Channel} {L' : Loop} (hflush : flushBatch cfg env L.out = (out, false))
    (hout : L'.out = out) : Halted path all L .sendError L'
  | release {now : Nanos} {held : Bool} {out : Channel} {L' : Loop} (hpath : path = .general)
    (hrelease : flushPending cfg env now held L.out = (out, false)) (hout : L'.out = out) :
    Halted path all L .sendError L'
  | emit {datagrams : List Datagram} {L₁ L' : Loop} {out : Channel} (hpath : path = .general)
    (hemits : Emits cfg env L datagrams L₁)
    (hemit : emitAll cfg env datagrams L.out = (out, false)) (hout : L'.out = out) :
    Halted path all L .sendError L'
  | thrown {answer : ReadAnswer} {error : String} {L' : Loop} (hmem : answer ∈ all)
    (hinvalid : ¬ answer.Valid) (hout : L'.out = L.out) : Halted path all L (.thrown error) L'
  | corrupt {L' : Loop} (hmem : .corrupt ∈ all) (hout : L'.out = L.out) :
    Halted path all L .corrupt L'
  /-- The encoder takes no more frames. -/
  | refused {m : Native} {L' : Loop} (hfec : cfg.fecK ≠ 0)
    (hadd : (L.encoder.add (encoded cfg m)).1 = false) (hout : L'.out = L.out) :
    Halted path all L .refused L'

variable {cfg env}

/-- **What every step keeps**, the steps keep. -/
theorem Steps.keep {path : Path} {P : Loop → Prop} {L L' : Loop} (h : Steps cfg env path L L')
    (hstep : ∀ {L L'}, P L → LoopStep cfg env path L L' → P L') (hL : P L) : P L' := by
  induction h with
  | refl => exact hL
  | tail _ hlast ih => exact hstep ih hlast

/-! ### The clock -/

theorem Env.Shown.mono {n n' : ℕ} {time : Nanos} (h : env.Shown n time) (hle : n ≤ n') :
    env.Shown n' time := by
  obtain ⟨j, hj, htime⟩ := h
  exact ⟨j, hj.trans_le hle, htime⟩

section Clock

variable {path : Path} {L L' : Loop}

theorem LoopStep.ticks_le (h : LoopStep cfg env path L L') : L.out.ticks ≤ L'.out.ticks := by
  cases h with
  | tick => exact Nat.le_succ _
  | flush hflush =>
    have hkeeps := flushBatch_keeps cfg env L.out
    rw [hflush] at hkeeps
    exact hkeeps.ticks
  | release _ hrelease => exact (flushPending_of_ok hrelease).keeps.ticks
  | emit _ _ hemit => exact emitAll_ticks hemit
  | place | lap | empty | progress | idle => exact le_rfl

theorem Steps.ticks_le (h : Steps cfg env path L L') : L.out.ticks ≤ L'.out.ticks :=
  h.keep (P := fun L' => L.out.ticks ≤ L'.out.ticks) (fun hle hstep => hle.trans hstep.ticks_le)
    le_rfl

/-- `last_progress` is a time the clock has shown. -/
theorem LoopStep.shown (h : LoopStep cfg env path L L')
    (hL : env.Shown L.out.ticks L.lastProgress) : env.Shown L'.out.ticks L'.lastProgress := by
  have hle := h.ticks_le
  cases h with
  | emit _ hemits =>
    cases hemits with
    | forward hnow => exact hnow.mono hle
    | protect _ hnow => exact hnow.mono hle
    | complete hnow => exact hnow.mono hle
    | close => exact hL.mono hle
  | progress hnow => exact hnow
  | tick | flush | release | place | lap | empty | idle => exact hL.mono hle

theorem Steps.shown (h : Steps cfg env path L L') (hL : env.Shown L.out.ticks L.lastProgress) :
    env.Shown L'.out.ticks L'.lastProgress :=
  h.keep (P := fun L => env.Shown L.out.ticks L.lastProgress) (fun hL hstep => hstep.shown hL) hL

end Clock

/-! ### Walks -/

/-- A part of the loop takes steps from `L`, to where `Q` holds if it goes on. -/
def Walks (cfg : Config) (env : Env) (path : Path) (all : List ReadAnswer) (L : Loop)
    (Q : Loop → Prop) : Loop × Option Exit → Prop
  | (L', none) => Steps cfg env path L L' ∧ Q L'
  | (L', some exit) => ∃ L₁, Steps cfg env path L L₁ ∧ Halted cfg env path all L₁ exit L'

/-- The same for a turn, which also ends the loop. -/
def WalksNext (cfg : Config) (env : Env) (path : Path) (all : List ReadAnswer) (L : Loop)
    (Q : Loop → Prop) : Loop × Next → Prop
  | (L', .again) => Steps cfg env path L L' ∧ Q L' ∧ L'.idleTerminated = false
  | (L', .leave) => Steps cfg env path L L' ∧ Q L' ∧ L'.idleTerminated = true
  | (L', .returns exit) => ∃ L₁, Steps cfg env path L L₁ ∧ Halted cfg env path all L₁ exit L'

section Walks

variable {path : Path} {all : List ReadAnswer} {L L₀ : Loop} {Q : Loop → Prop}

/-- Steps before a part of the loop. -/
theorem Walks.after {result : Loop × Option Exit} (h : Walks cfg env path all L Q result)
    (hsteps : Steps cfg env path L₀ L) : Walks cfg env path all L₀ Q result := by
  obtain ⟨L', exit⟩ := result
  cases exit with
  | none => exact ⟨hsteps.trans h.1, h.2⟩
  | some exit =>
    obtain ⟨L₁, hL₁, hhalted⟩ := h
    exact ⟨L₁, hsteps.trans hL₁, hhalted⟩

theorem WalksNext.after {result : Loop × Next} (h : WalksNext cfg env path all L Q result)
    (hsteps : Steps cfg env path L₀ L) : WalksNext cfg env path all L₀ Q result := by
  obtain ⟨L', next⟩ := result
  cases next with
  | again => exact ⟨hsteps.trans h.1, h.2⟩
  | leave => exact ⟨hsteps.trans h.1, h.2⟩
  | returns exit =>
    obtain ⟨L₁, hL₁, hhalted⟩ := h
    exact ⟨L₁, hsteps.trans hL₁, hhalted⟩

theorem WalksNext.mono {Q' : Loop → Prop} {result : Loop × Next}
    (h : WalksNext cfg env path all L Q result) (hQ : ∀ L', Q L' → Q' L') :
    WalksNext cfg env path all L Q' result := by
  obtain ⟨L', next⟩ := result
  cases next with
  | again => exact ⟨h.1, hQ L' h.2.1, h.2.2⟩
  | leave => exact ⟨h.1, hQ L' h.2.1, h.2.2⟩
  | returns exit => exact h

theorem Walks.mono {Q' : Loop → Prop} {result : Loop × Option Exit}
    (h : Walks cfg env path all L Q result) (hQ : ∀ L', Q L' → Q' L') :
    Walks cfg env path all L Q' result := by
  obtain ⟨L', exit⟩ := result
  cases exit with
  | none => exact ⟨h.1, hQ L' h.2⟩
  | some exit => exact h

end Walks

/-- What a part of the loop that reads nothing leaves alone. -/
structure Resting (L L' : Loop) : Prop where
  reads : L'.reads = L.reads
  sent : L'.sent = L.sent
  idleTerminated : L'.idleTerminated = L.idleTerminated

theorem Resting.refl (L : Loop) : Resting L L := ⟨rfl, rfl, rfl⟩

theorem Resting.trans {L L' L'' : Loop} (h : Resting L L') (h' : Resting L' L'') :
    Resting L L'' :=
  ⟨h'.reads.trans h.reads, h'.sent.trans h.sent, h'.idleTerminated.trans h.idleTerminated⟩

theorem Resting.wanting {L L' : Loop} (h : Resting L L') (hL : Wanting cfg L) : Wanting cfg L' :=
  ⟨h.idleTerminated.trans hL.busy, by rw [h.sent]; exact hL.count⟩

/-! ### Parts of both paths -/

section Parts

variable (cfg env) (path : Path) (all : List ReadAnswer) (L : Loop)

theorem flushDue_walks (loopNow : Nanos) :
    Walks cfg env path all L (fun L' => Resting L L' ∧ (L.out.batch = [] → L'.out.batch = []))
      (flushDue cfg env loopNow L) := by
  unfold flushDue
  split
  · split
    · next out hflush => exact ⟨L, .refl, .flush hflush rfl⟩
    · next out hflush =>
      exact ⟨.single (.flush hflush), ⟨rfl, rfl, rfl⟩, fun _ => (flushBatch_of_ok hflush).2⟩
  · exact ⟨.refl, .refl L, id⟩

variable {cfg env} in
theorem emitAll_singleton (data : Datagram) (C : Channel) :
    emitAll cfg env [data] C = emitDatagram cfg env data C := by
  unfold emitAll
  generalize emitDatagram cfg env data C = result
  obtain ⟨C', ok⟩ := result
  cases ok with
  | false => rfl
  | true => rfl

variable {cfg} in
theorem closeGeneration_of_plain (hfec : cfg.fecK = 0) (reason : BitVec 8) :
    closeGeneration cfg env reason L = (L, none) := if_pos (.inl hfec)

/-- **A generation is closed**, if there is one. -/
theorem closeGeneration_walks (reason : BitVec 8) (hreason : reason.toNat ≤ 2) :
    Walks cfg env .general all L
      (fun L' => Resting L L' ∧ (cfg.fecK ≠ 0 → L'.encoder.frames = []))
      (closeGeneration cfg env reason L) := by
  unfold closeGeneration
  split
  · next hnone =>
    refine ⟨.refl, .refl L, fun hfec => ?_⟩
    exact List.isEmpty_iff.mp (hnone.resolve_left hfec)
  next hopen =>
  have hne : L.encoder.frames ≠ [] := fun hnil => hopen (.inr (List.isEmpty_iff.mpr hnil))
  let O : Origin := ⟨L.encoder, L.fecGenId, reason, hne⟩
  have hclose : L.encoder.close L.fecGenId reason = .ok (O.built, L.encoder.reset) := O.close_eq
  have hemits : Emits cfg env L (O.built.parity :: O.built.extraParity) (L.closed O.encoder) :=
    .close (fun hzero => hopen (.inl hzero)) rfl rfl hreason
  rw [hclose]
  dsimp only
  split
  · next out hemit => exact ⟨L, .refl, .emit rfl hemits hemit rfl⟩
  · next out hemit =>
    exact ⟨.single (.emit rfl hemits hemit), ⟨rfl, rfl, rfl⟩, fun _ => rfl⟩

variable {cfg} in
theorem closeDue_of_plain (hfec : cfg.fecK = 0) (loopNow : Nanos) :
    closeDue cfg env loopNow L = (L, none) := if_neg fun hdue => hdue.1 hfec

theorem closeDue_walks (loopNow : Nanos) :
    Walks cfg env .general all L (Resting L) (closeDue cfg env loopNow L) := by
  unfold closeDue
  split
  · exact (closeGeneration_walks cfg env all L 1 (by decide)).mono fun _ h => h.1
  · exact ⟨.refl, .refl L⟩

variable {cfg}

/-- Setting the stream leaves a frame valid. -/
theorem encode_of_valid {m : Native} (hm : validateFrame m.header m.size = true) :
    Wire.encode (setStream cfg.key m) = .ok (encoded cfg m) := by
  refine Wire.encode_eq _ ?_
  cases m <;> exact hm

/-- A frame that `encode` rejects is not valid. -/
theorem not_valid_of_error {m : Native} {error : String}
    (h : Wire.encode (setStream cfg.key m) = .error error) : ¬ (ReadAnswer.ok (some m)).Valid := by
  intro hm
  rw [encode_of_valid hm] at h
  cases h

end Parts

/-! ### The general path -/

section General

variable (env) (all : List ReadAnswer) {L : Loop}

/-- What holds when the ring is read, in a turn that began at `loopNow`. -/
structure Ready (cfg : Config) (env : Env) (loopNow : Nanos) (L : Loop) : Prop
    extends Wanting cfg L where
  now : env.Shown L.out.ticks loopNow
  lastProgress : env.Shown L.out.ticks L.lastProgress

variable {loopNow : Nanos} (hready : Ready cfg env loopNow L)
include hready

/-- What becomes of a frame that was read: one emission, or an exit. -/
def Takes (cfg : Config) (env : Env) (all : List ReadAnswer) (L : Loop) (m : Native)
    (loopNow : Nanos) : Loop × Option Exit → Prop
  | (L', none) => LoopStep cfg env .general L
      { L' with sent := L'.sent + 1, readIndex := L'.readIndex + 1, lastProgress := loopNow } ∧
    L'.reads = L.reads ++ [.ok (some m)] ∧ L'.idleTerminated = L.idleTerminated
  | (L', some exit) => Halted cfg env .general all L exit L'

/-- **A frame without FEC.** -/
theorem forwardFrame_takes (hfec : cfg.fecK = 0) {m : Native} {frame : List Byte}
    (hencode : Wire.encode (setStream cfg.key m) = .ok frame) :
    Takes cfg env all L m loopNow (forwardFrame cfg env frame { L with
      reads := L.reads ++ [.ok (some m)]
      taken := L.taken ++ [(L.readIndex, m)] }) := by
  have hemits := Emits.forward hready.now hfec hready.toWanting hencode
  unfold forwardFrame
  dsimp only
  generalize hemit : emitDatagram cfg env frame L.out = result
  rw [← emitAll_singleton] at hemit
  obtain ⟨out, ok⟩ := result
  cases ok with
  | false => exact .emit rfl hemits hemit rfl
  | true => exact ⟨.emit rfl hemits hemit, rfl, rfl⟩

/-- **A frame with FEC.** The data shard and the parity shards that follow it go out together. -/
theorem protectFrame_takes (hfec : cfg.fecK ≠ 0) {m : Native} {frame : List Byte}
    (hencode : Wire.encode (setStream cfg.key m) = .ok frame) :
    Takes cfg env all L m loopNow (protectFrame cfg env loopNow frame { L with
      reads := L.reads ++ [.ok (some m)]
      taken := L.taken ++ [(L.readIndex, m)] }) := by
  unfold protectFrame
  dsimp only
  generalize hadd : L.encoder.add frame = added
  obtain ⟨taken, encoder⟩ := added
  cases taken with
  | false =>
    refine .refused (m := m) hfec ?_ rfl
    rw [encoded, ← encode_setStream hencode, hadd]
  | true =>
    have hframes : encoder.frames = L.encoder.frames ++ [frame] := by
      have hok := Encoder.add_ok (E := L.encoder) (f := frame) (by rw [hadd])
      rw [hadd] at hok
      exact hok.2.2
    have hne : encoder.frames ≠ [] := by
      rw [hframes]
      exact List.append_ne_nil_of_right_ne_nil _ (List.cons_ne_nil _ _)
    -- the data shard goes out before anything is known about the generation
    dsimp only
    generalize hemit : emitDatagram cfg env
      (dataDatagram L.fecGenId L.encoder.size cfg.fecK frame) L.out = result
    obtain ⟨out, ok⟩ := result
    by_cases hfull : encoder.full = true
    · -- the generation is full: its parity shards are part of the step
      let O : Origin := ⟨encoder, L.fecGenId, 0, hne⟩
      have hemits := Emits.complete (O := O) hready.now hfec hready.toWanting hencode hadd rfl
        rfl
      cases ok with
      | false => exact .emit rfl hemits (by rw [emitAll, hemit]) rfl
      | true =>
        have hopen : ¬ (cfg.fecK = 0 ∨ encoder.empty = true) := by
          rintro (hzero | hnil)
          · exact hfec hzero
          · exact hne (List.isEmpty_iff.mp hnil)
        have hclose : encoder.close L.fecGenId 0 = .ok (O.built, encoder.reset) := O.close_eq
        dsimp only
        rw [if_pos hfull, closeGeneration, if_neg hopen]
        dsimp only
        rw [hclose]
        dsimp only
        generalize hparity : emitAll cfg env (O.built.parity :: O.built.extraParity) out = result
        have hall : emitAll cfg env (dataDatagram L.fecGenId L.encoder.size cfg.fecK frame ::
            O.built.parity :: O.built.extraParity) L.out = result := by
          rw [emitAll, hemit]
          exact hparity
        obtain ⟨out', ok⟩ := result
        cases ok with
        | false => exact .emit rfl hemits hall rfl
        | true => exact ⟨.emit rfl hemits hall, rfl, rfl⟩
    -- there is room for more frames: the data shard goes out alone
    · have hroom : encoder.full = false := Bool.eq_false_of_not_eq_true hfull
      have hemits := Emits.protect (if L.encoder.empty then loopNow else L.fecFirstNs)
        hready.now hfec hready.toWanting hencode hadd hroom
      rw [← emitAll_singleton] at hemit
      cases ok with
      | false => exact .emit rfl hemits hemit rfl
      | true =>
        dsimp only
        rw [if_neg hfull]
        exact ⟨.emit rfl hemits hemit, rfl, rfl⟩

/-- The branch for `kOk`. -/
theorem takeFrame_walks {m : Native} (hmem : .ok (some m) ∈ all) :
    Walks cfg env .general all L
      (fun L' => L'.reads = L.reads ++ [.ok (some m)] ∧ L'.idleTerminated = false)
      (takeFrame cfg env loopNow m { L with reads := L.reads ++ [.ok (some m)] }) := by
  unfold takeFrame
  dsimp only
  split
  · next error hencode => exact ⟨L, .refl, .thrown hmem (not_valid_of_error hencode) rfl⟩
  next frame hencode =>
  have htakes : Takes cfg env all L m loopNow
      (if cfg.fecK = 0 then forwardFrame cfg env frame { L with
          reads := L.reads ++ [.ok (some m)]
          taken := L.taken ++ [(L.readIndex, m)] }
        else protectFrame cfg env loopNow frame { L with
          reads := L.reads ++ [.ok (some m)]
          taken := L.taken ++ [(L.readIndex, m)] }) := by
    split
    · next hfec => exact forwardFrame_takes env all hready hfec hencode
    · next hfec => exact protectFrame_takes env all hready hfec hencode
  generalize (if cfg.fecK = 0 then forwardFrame cfg env frame _
    else protectFrame cfg env loopNow frame _) = result at htakes ⊢
  obtain ⟨L', exit⟩ := result
  cases exit with
  | none => exact ⟨.single htakes.1, htakes.2.1, htakes.2.2.trans hready.busy⟩
  | some exit => exact ⟨L, .refl, htakes⟩

/-- The branch for `kEmpty`. -/
theorem idle_walks :
    WalksNext cfg env .general all L (fun L' => L'.reads = L.reads ++ [.empty])
      (idle cfg env { L with reads := L.reads ++ [.empty] }) := by
  have hticked : Steps cfg env .general L
      { L with reads := L.reads ++ [.empty], out := L.out.tick } :=
    (ReflTransGen.single (.empty hready.toWanting)).tail .tick
  unfold idle
  dsimp only
  generalize hrelease : flushPending cfg env _ false L.out.tick = result
  obtain ⟨out, ok⟩ := result
  cases ok with
  | false => exact ⟨_, hticked, .release rfl hrelease rfl⟩
  | true =>
    have hreleased := hticked.tail (.release rfl hrelease)
    dsimp only
    generalize hflush : flushBatch cfg env out = result
    obtain ⟨out', ok⟩ := result
    cases ok with
    | false => exact ⟨_, hreleased, .flush hflush rfl⟩
    | true =>
      have hflushed := hreleased.tail (.flush hflush)
      dsimp only
      split
      · next hidle =>
        exact ⟨hflushed.tail (.idle rfl (.inl rfl) hready.lastProgress hidle), rfl, rfl⟩
      · exact ⟨hflushed, rfl, hready.busy⟩

/-- What is done with the answer of `ring.read`. -/
theorem handle_walks {answer : ReadAnswer} (hmem : answer ∈ all) :
    WalksNext cfg env .general all L (fun L' => L'.reads = L.reads ++ [answer])
      (handle cfg env loopNow answer { L with reads := L.reads ++ [answer] }) := by
  match answer with
  | .ok none => exact ⟨L, .refl, .thrown hmem id rfl⟩
  | .ok (some m) =>
    have htake := takeFrame_walks env all hready hmem
    unfold handle
    dsimp only
    generalize takeFrame cfg env loopNow m _ = result at htake ⊢
    obtain ⟨L', exit⟩ := result
    cases exit with
    | none => exact htake
    | some exit => exact htake
  | .lapped resume => exact ⟨.single (.lap resume hready.toWanting), rfl, hready.busy⟩
  | .corrupt => exact ⟨L, .refl, .corrupt hmem rfl⟩
  | .empty => exact idle_walks env all hready

omit hready

/-- **One turn.** -/
theorem turn_walks (hwanting : Wanting cfg L) (hshown : env.Shown L.out.ticks L.lastProgress)
    {answer : ReadAnswer} (hmem : answer ∈ all) :
    WalksNext cfg env .general all L (fun L' => L'.reads = L.reads ++ [answer])
      (turn cfg env answer L) := by
  have hticked : Steps cfg env .general L { L with out := L.out.tick } := .single .tick
  have hflush := flushDue_walks cfg env .general all { L with out := L.out.tick }
    (env.clock L.out.ticks)
  unfold turn
  dsimp only
  generalize flushDue cfg env _ _ = result at hflush ⊢
  obtain ⟨L₁, exit⟩ := result
  cases exit with
  | some exit => exact hflush.after hticked
  | none =>
    obtain ⟨hsteps₁, hresting₁, -⟩ := hflush
    have hclose := closeDue_walks cfg env all L₁ (env.clock L.out.ticks)
    dsimp only
    generalize closeDue cfg env _ L₁ = result at hclose ⊢
    obtain ⟨L₂, exit⟩ := result
    cases exit with
    | some exit => exact hclose.after (hticked.trans hsteps₁)
    | none =>
      obtain ⟨hsteps₂, hresting₂⟩ := hclose
      have hsteps : Steps cfg env .general L L₂ := hticked.trans (hsteps₁.trans hsteps₂)
      have hresting := hresting₁.trans hresting₂
      have hreads : L₂.reads = L.reads := hresting.reads
      -- what comes before `ring.read` does not touch what decides whether to read
      have hready : Ready cfg env (env.clock L.out.ticks) L₂ :=
        ⟨hresting.wanting ⟨hwanting.busy, hwanting.count⟩,
          ⟨L.out.ticks, Steps.ticks_le (hsteps₁.trans hsteps₂), rfl⟩, hsteps.shown hshown⟩
      have hhandle := (handle_walks env all hready hmem).after hsteps
      dsimp only
      rw [hreads] at hhandle ⊢
      exact hhandle

/-- Where the loop is left: the answers are used up, or `count` is reached, or the ring is idle. -/
def Left (cfg : Config) (answers : List ReadAnswer) (L L' : Loop) : Prop :=
  ∃ rest, L'.reads ++ rest = L.reads ++ answers ∧
    (rest = [] ∨ L'.idleTerminated = true ∨ cfg.count ≠ 0 ∧ cfg.count ≤ L'.sent)

/-- **The loop of the general path.** -/
theorem loop_walks (hbusy : L.idleTerminated = false)
    (hshown : env.Shown L.out.ticks L.lastProgress) {answers : List ReadAnswer}
    (hall : ∀ answer ∈ answers, answer ∈ all) :
    Walks cfg env .general all L (Left cfg answers L) (loop cfg env answers L) := by
  -- one turn for each answer; what a turn has used is at the end of `reads`
  induction answers generalizing L with
  | nil => exact ⟨.refl, [], rfl, .inl rfl⟩
  | cons answer answers ih =>
    unfold loop
    split
    · next hdone => exact ⟨.refl, answer :: answers, rfl, .inr (.inr hdone)⟩
    next hgo =>
    have hturn := turn_walks env all (show Wanting cfg L from ⟨hbusy, by omega⟩) hshown
      (hall answer List.mem_cons_self)
    generalize turn cfg env answer L = result at hturn ⊢
    obtain ⟨L₁, next⟩ := result
    cases next with
    | again =>
      obtain ⟨hsteps, hreads, hbusy₁⟩ := hturn
      refine ((ih hbusy₁ (hsteps.shown hshown) fun a ha =>
        hall a (List.mem_cons_of_mem _ ha)).after hsteps).mono ?_
      rintro L' ⟨rest, hrest, hend⟩
      refine ⟨rest, hrest.trans ?_, hend⟩
      rw [hreads, List.append_assoc, List.singleton_append]
    | leave =>
      obtain ⟨hsteps, hreads, hidle⟩ := hturn
      refine ⟨hsteps, answers, ?_, .inr (.inl hidle)⟩
      rw [hreads, List.append_assoc, List.singleton_append]
    | returns exit => exact hturn

/-- **After the loop.** -/
theorem finishRun_walks (L : Loop) :
    Walks cfg env .general all L
      (fun L' => Resting L L' ∧ L'.out.batch = [] ∧ (cfg.fecK ≠ 0 → L'.encoder.frames = []))
      (finishRun cfg env L) := by
  have hclose := closeGeneration_walks cfg env all L 2 (by decide)
  unfold finishRun
  generalize closeGeneration cfg env 2 L = result at hclose ⊢
  obtain ⟨L₁, exit⟩ := result
  cases exit with
  | some exit => exact hclose
  | none =>
    obtain ⟨hsteps, hresting, hnil⟩ := hclose
    have hticked := hsteps.tail .tick
    dsimp only
    generalize hrelease : flushPending cfg env _ true L₁.out.tick = result
    obtain ⟨out, ok⟩ := result
    cases ok with
    | false => exact ⟨_, hticked, .release rfl hrelease rfl⟩
    | true =>
      have hreleased := hticked.tail (.release rfl hrelease)
      dsimp only
      generalize hflush : flushBatch cfg env out = result
      obtain ⟨out', ok⟩ := result
      cases ok with
      | false => exact ⟨_, hreleased, .flush hflush rfl⟩
      | true =>
        exact ⟨hreleased.tail (.flush hflush),
          ⟨hresting.reads, hresting.sent, hresting.idleTerminated⟩, (flushBatch_of_ok hflush).2,
          hnil⟩

end General

/-- At the end of a run nothing is queued and no generation is open. -/
structure Ended (cfg : Config) (answers : List ReadAnswer) (L : Loop) : Prop where
  reads : ∃ rest, L.reads ++ rest = answers ∧
    (rest = [] ∨ L.idleTerminated = true ∨ cfg.count ≠ 0 ∧ cfg.count ≤ L.sent)
  batch : L.out.batch = []
  encoder : cfg.fecK ≠ 0 → L.encoder.frames = []

theorem Ended.of_left {answers : List ReadAnswer} {readIndex : ℕ} {L L' : Loop}
    (h : Left cfg answers (.start cfg env readIndex) L) (hresting : Resting L L')
    (hbatch : L'.out.batch = []) (hencoder : cfg.fecK ≠ 0 → L'.encoder.frames = []) :
    Ended cfg answers L' := by
  obtain ⟨rest, hrest, hend⟩ := h
  refine ⟨⟨rest, ?_, ?_⟩, hbatch, hencoder⟩
  · rw [hresting.reads]
    exact hrest
  · rw [hresting.idleTerminated, hresting.sent]
    exact hend

/-- **A run of the general path.** -/
theorem generalPath_walks (cfg : Config) (env : Env) (readIndex : ℕ) (answers : List ReadAnswer) :
    Walks cfg env .general answers (.start cfg env readIndex) (Ended cfg answers)
      (generalPath cfg env readIndex answers) := by
  have hloop : Walks cfg env .general answers (.start cfg env readIndex)
      (Left cfg answers (.start cfg env readIndex))
      (loop cfg env answers (.start cfg env readIndex)) :=
    loop_walks env answers rfl ⟨0, Nat.two_pos, rfl⟩ fun _ hmem => hmem
  unfold generalPath
  generalize loop cfg env answers _ = result at hloop ⊢
  obtain ⟨L, exit⟩ := result
  cases exit with
  | some exit => exact hloop
  | none =>
    obtain ⟨hsteps, hleft⟩ := hloop
    refine ((finishRun_walks env answers L).after hsteps).mono ?_
    rintro L' ⟨hresting, hbatch, hencoder⟩
    exact .of_left hleft hresting hbatch hencoder

/-! ### The fast path -/

section Fast

variable (env) (all : List ReadAnswer) {L : Loop}

/-- What the inner loop comes back with: the answers it has used are accounted for, and it has used
one if there was room and one was wanted. Without progress that was `kEmpty` or `kLapped`. -/
structure FilledFrom (cfg : Config) (answers : List ReadAnswer) (made : Bool) (L : Loop)
    (rest : List ReadAnswer) (L' : Loop) (made' : Bool) : Prop where
  busy : L'.idleTerminated = false
  reads : L'.reads ++ rest = L.reads ++ answers
  suffix : rest <:+ answers
  made : made = true → made' = true
  used : answers ≠ [] → L.out.batch.length < cfg.batchSize → Wanting cfg L →
    rest.length < answers.length ∧ (made' = false → ∃ answer, L'.reads = L.reads ++ [answer] ∧
      (answer = .empty ∨ ∃ resume, answer = .lapped resume))

/-- The inner loop takes steps. -/
def Fills (cfg : Config) (env : Env) (all answers : List ReadAnswer) (made : Bool) (L : Loop) :
    Filled → Prop
  | ⟨rest, L', made', none⟩ =>
    Steps cfg env .fast L L' ∧ FilledFrom cfg answers made L rest L' made'
  | ⟨_, L', _, some exit⟩ =>
    ∃ L₁, Steps cfg env .fast L L₁ ∧ Halted cfg env .fast all L₁ exit L'

/-- **The inner loop.** -/
theorem fillBatch_fills (hbusy : L.idleTerminated = false) (loopNow : Nanos)
    {answers : List ReadAnswer} (hall : ∀ answer ∈ answers, answer ∈ all) (made : Bool) :
    Fills cfg env all answers made L (fillBatch cfg loopNow answers made L) := by
  induction answers generalizing L made with
  | nil => exact ⟨.refl, hbusy, rfl, List.suffix_rfl, id, fun hne => absurd rfl hne⟩
  | cons answer answers ih =>
    unfold fillBatch
    split
    swap
    -- the batch is full or `count` is reached: nothing is read
    · next hfull =>
      exact ⟨.refl, hbusy, rfl, List.suffix_rfl, id, fun _ hroom hwanting =>
        absurd ⟨hroom, hwanting.count⟩ hfull⟩
    next hroom =>
    have hwanting : Wanting cfg L := ⟨hbusy, hroom.2⟩
    have hmem := hall answer List.mem_cons_self
    have happend : (L.reads ++ [answer]) ++ answers = L.reads ++ answer :: answers := by
      rw [List.append_assoc, List.singleton_append]
    match answer with
    | .ok none => exact ⟨L, .refl, .thrown hmem id rfl⟩
    | .ok (some m) =>
      dsimp only
      split
      · next error hencode => exact ⟨L, .refl, .thrown hmem (not_valid_of_error hencode) rfl⟩
      next frame hencode =>
      have hplace : LoopStep cfg env .fast L { L.took m with out := L.out.place loopNow frame } :=
        .place loopNow rfl hwanting hroom.1 hencode
      -- the rest is filled in from where the frame has been put into the batch
      have hF := ih (L := { L.took m with out := L.out.place loopNow frame }) hbusy
        (fun a ha => hall a (List.mem_cons_of_mem _ ha)) true
      change Fills cfg env all _ made L
        (fillBatch cfg loopNow answers true { L.took m with out := L.out.place loopNow frame })
      generalize fillBatch cfg loopNow answers true _ = filled at hF ⊢
      obtain ⟨rest, L', made', exit⟩ := filled
      cases exit with
      | some exit =>
        obtain ⟨L₁, hsteps, hhalted⟩ := hF
        exact ⟨L₁, .head hplace hsteps, hhalted⟩
      | none =>
        obtain ⟨hsteps, hfrom⟩ := hF
        have hmade : made' = true := hfrom.made rfl
        have hrest : rest.length < (ReadAnswer.ok (some m) :: answers).length :=
          Nat.lt_succ_of_le hfrom.suffix.length_le
        refine ⟨.head hplace hsteps, hfrom.busy, hfrom.reads.trans happend,
          hfrom.suffix.trans (List.suffix_cons _ _), fun _ => hmade,
          fun _ _ _ => ⟨hrest, fun hnone => ?_⟩⟩
        rw [hmade] at hnone
        cases hnone
    -- a lap and an empty ring end the filling, with the answer used up
    | .lapped resume =>
      exact ⟨.single (.lap resume hwanting), hbusy, happend, List.suffix_cons _ _, id, fun _ _ _ =>
        ⟨Nat.lt_succ_self _, fun _ => ⟨_, rfl, .inr ⟨resume, rfl⟩⟩⟩⟩
    | .corrupt => exact ⟨L, .refl, .corrupt hmem rfl⟩
    | .empty =>
      exact ⟨.single (.empty hwanting), hbusy, happend, List.suffix_cons _ _, id, fun _ _ _ =>
        ⟨Nat.lt_succ_self _, fun _ => ⟨_, rfl, .inl rfl⟩⟩⟩

/-- **What follows the inner loop** leaves the batch empty. -/
theorem handOver_walks (hbusy : L.idleTerminated = false) {loopNow : Nanos}
    (hnow : env.Shown L.out.ticks loopNow) (hshown : env.Shown L.out.ticks L.lastProgress)
    (made : Bool) (hlast : made = false → ∃ used answer, L.reads = used ++ [answer] ∧
      (answer = .empty ∨ ∃ resume, answer = .lapped resume)) :
    WalksNext cfg env .fast all L (fun L' => L'.reads = L.reads ∧ L'.out.batch = [])
      (handOver cfg env loopNow made L) := by
  unfold handOver
  generalize hfull : (if cfg.batchSize ≤ L.out.batch.length then flushBatch cfg env L.out
    else (L.out, true)) = result
  obtain ⟨out, ok⟩ := result
  cases ok with
  | false =>
    split at hfull
    · exact ⟨L, .refl, .flush hfull rfl⟩
    · cases hfull
  | true =>
    have hfirst : Steps cfg env .fast L { L with out } := by
      split at hfull
      · exact .single (.flush hfull)
      · cases hfull
        exact .refl
    -- `last_progress` is when the turn began, if something was read in it
    have hsince : env.Shown out.ticks (if made then loopNow else L.lastProgress) := by
      split
      · exact hnow.mono hfirst.ticks_le
      · exact hfirst.shown hshown
    have hprogress := hfirst.tail (.progress hsince hbusy)
    dsimp only
    generalize hflush : flushBatch cfg env out = result
    obtain ⟨out', ok⟩ := result
    cases ok with
    | false => exact ⟨_, hprogress, .flush hflush rfl⟩
    | true =>
      have hflushed := hprogress.tail (.flush hflush)
      have hbatch := (flushBatch_of_ok hflush).2
      cases made with
      | true => exact ⟨hflushed, ⟨rfl, hbatch⟩, hbusy⟩
      | false =>
        -- nothing was read: this is where the fast path looks whether the ring is idle
        obtain ⟨used, answer, hreads, hanswer⟩ := hlast rfl
        simp only [Bool.false_eq_true, if_false] at hflushed ⊢
        have hsince' : env.Shown out'.ticks L.lastProgress := Steps.shown hflushed hshown
        split
        · next hidle =>
          exact ⟨(hflushed.tail .tick).tail (.idle hreads
            (hanswer.imp_right fun hlap => ⟨rfl, hlap⟩) hsince' hidle),
            ⟨rfl, hbatch⟩, rfl⟩
        · exact ⟨hflushed.tail .tick, ⟨rfl, hbatch⟩, hbusy⟩

/-- **One turn of the fast path**, with the batch empty before and after. -/
theorem fastTurn_walks (hfec : cfg.fecK = 0) (hwanting : Wanting cfg L)
    (hshown : env.Shown L.out.ticks L.lastProgress) (hbatch : L.out.batch = [])
    {answers : List ReadAnswer} (hne : answers ≠ []) (hall : ∀ answer ∈ answers, answer ∈ all) :
    WalksNext cfg env .fast all L
      (fun L' => L'.reads ++ (fastTurn cfg env answers L).1 = L.reads ++ answers ∧
        (fastTurn cfg env answers L).1 <:+ answers ∧
        (fastTurn cfg env answers L).1.length < answers.length ∧ L'.out.batch = [])
      (fastTurn cfg env answers L).2 := by
  have hticked : Steps cfg env .fast L { L with out := L.out.tick } := .single .tick
  have hflush := flushDue_walks cfg env .fast all { L with out := L.out.tick }
    (env.clock L.out.ticks)
  unfold fastTurn
  dsimp only
  generalize flushDue cfg env _ _ = result at hflush ⊢
  obtain ⟨L₁, exit⟩ := result
  cases exit with
  | some exit => exact hflush.after hticked
  | none =>
    obtain ⟨hsteps₁, hresting, hbatch₁⟩ := hflush
    have hwanting₁ : Wanting cfg L₁ := hresting.wanting ⟨hwanting.busy, hwanting.count⟩
    -- the batch is empty, so that the inner loop reads at least once
    have hroom : L₁.out.batch.length < cfg.batchSize := by
      rw [hbatch₁ hbatch]
      exact cfg.batchSize_range.1
    have hreads : L₁.reads = L.reads := hresting.reads
    dsimp only
    rw [closeDue_of_plain env L₁ hfec]
    have hfill : Fills cfg env all answers false L₁
        (fillBatch cfg (env.clock L.out.ticks) answers false L₁) :=
      fillBatch_fills env all hwanting₁.busy _ hall false
    dsimp only
    generalize fillBatch cfg _ answers false L₁ = filled at hfill ⊢
    obtain ⟨rest, L₂, made, exit⟩ := filled
    cases exit with
    | some exit =>
      obtain ⟨L₃, hsteps₃, hhalted⟩ := hfill
      exact ⟨L₃, hticked.trans (hsteps₁.trans hsteps₃), hhalted⟩
    | none =>
      obtain ⟨hsteps₂, hfrom⟩ := hfill
      have hsteps : Steps cfg env .fast L L₂ := hticked.trans (hsteps₁.trans hsteps₂)
      have hnow : env.Shown L₂.out.ticks (env.clock L.out.ticks) :=
        ⟨L.out.ticks, Steps.ticks_le (hsteps₁.trans hsteps₂), rfl⟩
      obtain ⟨hshorter, hlast⟩ := hfrom.used hne hroom hwanting₁
      have hover : WalksNext cfg env .fast all L₂
          (fun L' => L'.reads = L₂.reads ∧ L'.out.batch = [])
          (handOver cfg env (env.clock L.out.ticks) made L₂) :=
        handOver_walks env all hfrom.busy hnow (hsteps.shown hshown) made
          fun hnone => ⟨L₁.reads, hlast hnone⟩
      refine (hover.after hsteps).mono ?_
      rintro L' ⟨hreads', hbatch'⟩
      exact ⟨by rw [hreads', hfrom.reads, hreads], hfrom.suffix, hshorter, hbatch'⟩

/-- **The loop of the fast path.** -/
theorem fastLoop_walks (hfec : cfg.fecK = 0) (hbusy : L.idleTerminated = false)
    (hshown : env.Shown L.out.ticks L.lastProgress) (hbatch : L.out.batch = []) {turns : ℕ}
    {answers : List ReadAnswer} (hturns : answers.length ≤ turns)
    (hall : ∀ answer ∈ answers, answer ∈ all) :
    Walks cfg env .fast all L (fun L' => Left cfg answers L L' ∧ L'.out.batch = [])
      (fastLoop cfg env turns answers L) := by
  -- each turn uses an answer, so as many turns as answers are enough
  induction turns generalizing answers L with
  | zero =>
    obtain rfl : answers = [] := List.eq_nil_of_length_eq_zero (Nat.le_zero.mp hturns)
    exact ⟨.refl, ⟨[], rfl, .inl rfl⟩, hbatch⟩
  | succ turns ih =>
    unfold fastLoop
    split
    · next hstop => exact ⟨.refl, ⟨answers, rfl, hstop.imp_right .inr⟩, hbatch⟩
    next hgo =>
    push Not at hgo
    have hturn := fastTurn_walks env all hfec (show Wanting cfg L from ⟨hbusy, by omega⟩) hshown
      hbatch hgo.1 hall
    generalize fastTurn cfg env answers L = result at hturn ⊢
    obtain ⟨rest, L₁, next⟩ := result
    cases next with
    | again =>
      obtain ⟨hsteps, ⟨hreads, hsuffix, hshorter, hbatch₁⟩, hbusy₁⟩ := hturn
      dsimp only at hreads hsuffix hshorter ⊢
      have hless : rest.length ≤ turns := by omega
      refine ((ih hbusy₁ (hsteps.shown hshown) hbatch₁ hless fun a ha =>
        hall a (hsuffix.mem ha)).after hsteps).mono ?_
      rintro L' ⟨⟨rest', hrest', hend⟩, hbatch'⟩
      exact ⟨⟨rest', hrest'.trans hreads, hend⟩, hbatch'⟩
    | leave =>
      obtain ⟨hsteps, ⟨hreads, -, -, hbatch₁⟩, hidle⟩ := hturn
      exact ⟨hsteps, ⟨rest, hreads, .inr (.inl hidle)⟩, hbatch₁⟩
    | returns exit => exact hturn

end Fast

/-- Nothing is held back on the fast path. -/
theorem Steps.pending_of_fast {L L' : Loop} (h : Steps cfg env .fast L L')
    (hL : L.out.pending = []) : L'.out.pending = [] := by
  refine h.keep (P := fun L => L.out.pending = []) ?_ hL
  intro L L' hpending hstep
  cases hstep with
  | flush hflush => exact (flushBatch_of_ok hflush).1.pending.trans hpending
  | release hpath => cases hpath
  | emit hpath => cases hpath
  | tick | place | lap | empty | progress | idle => exact hpending

/-- **A run of the fast path.** -/
theorem fastPath_walks (cfg : Config) (hfec : cfg.fecK = 0) (env : Env) (readIndex : ℕ)
    (answers : List ReadAnswer) :
    Walks cfg env .fast answers (.start cfg env readIndex) (Ended cfg answers)
      (fastPath cfg env readIndex answers) := by
  have hloop : Walks cfg env .fast answers (.start cfg env readIndex)
      (fun L => Left cfg answers (.start cfg env readIndex) L ∧ L.out.batch = [])
      (fastLoop cfg env answers.length answers (.start cfg env readIndex)) :=
    fastLoop_walks env answers hfec rfl ⟨0, Nat.two_pos, rfl⟩ rfl le_rfl fun _ hmem => hmem
  unfold fastPath
  generalize fastLoop cfg env _ answers _ = result at hloop ⊢
  obtain ⟨L, exit⟩ := result
  cases exit with
  | some exit => exact hloop
  | none =>
    obtain ⟨hsteps, hleft, hbatch⟩ := hloop
    -- no generation is open and nothing is held back, so there is only the flush
    have hpending : L.out.tick.pending = [] := hsteps.pending_of_fast rfl
    have hticked := hsteps.tail .tick
    unfold finishRun
    dsimp only
    rw [closeGeneration_of_plain env L hfec]
    dsimp only
    rw [flushPending_of_nil hpending]
    dsimp only
    split
    · next out hflush => exact ⟨_, hticked, .flush hflush rfl⟩
    · next out hflush =>
      exact ⟨hticked.tail (.flush hflush), .of_left hleft ⟨rfl, rfl, rfl⟩
        (flushBatch_of_ok hflush).2 fun hne => absurd hfec hne⟩

end Sender
end PulseFanout
