import PulseFanout.Sender.General

/-!
# The plain fast path (`sender.cpp`, `run`)

Without FEC, impairment and echo, `run` takes another way through its loop: it reads frames straight
into the buffers of the batch until that is full, the ring has no more or laps the reader, encodes
each where it lies, and flushes what it has got before it looks at the clock again. `fastPath` is
that loop, over the same variables and the same answers of the ring as `generalPath`, and `run`
chooses between the two.

A turn that has read no frame looks whether the ring has been idle for too long, also when the
reader was lapped in it; the general path looks only when the ring was empty.
-/

namespace PulseFanout
namespace Sender

open Framework Msg Multiplex

/-! ### The loop -/

/-- A frame at the end of the batch; `first_ns` is the time the turn began. -/
def Channel.place (loopNow : Nanos) (frame : Datagram) (C : Channel) : Channel :=
  { C with
    batch := C.batch ++ [frame]
    firstNs := if C.batch = [] then loopNow else C.firstNs }

/-- What the inner loop comes back with: the answers not used, `made_progress`, and the reason if
`run` returns from within. -/
structure Filled where
  rest : List ReadAnswer
  loop : Loop
  madeProgress : Bool
  exit : Option Exit

variable (cfg : Config) (env : Env)

/-- The inner loop. After the last answer the ring is empty. -/
def fillBatch (loopNow : Nanos) : List ReadAnswer → Bool → Loop → Filled
  | [], made, L => ⟨[], L, made, none⟩
  | answer :: answers, made, L =>
    if L.out.batch.length < cfg.batchSize ∧ (cfg.count = 0 ∨ L.sent < cfg.count) then
      let L := { L with reads := L.reads ++ [answer] }
      match answer with
      | .ok none => ⟨answers, L, made, some (.thrown "invalid native message")⟩
      | .ok (some m) =>
        let L := { L with taken := L.taken ++ [(L.readIndex, m)] }
        match Wire.encode (setStream cfg.key m) with
        | .error error => ⟨answers, L, made, some (.thrown error)⟩
        | .ok frame =>
          fillBatch loopNow answers true
            { L with
              out := L.out.place loopNow frame
              sent := L.sent + 1
              readIndex := L.readIndex + 1 }
      | .lapped resume =>
        let L := { L with
          lappedEvents := L.lappedEvents + 1
          skippedMessages := L.skippedMessages + (resume - L.readIndex)
          readIndex := resume }
        ⟨answers, L, made, none⟩
      | .corrupt => ⟨answers, L, made, some .corrupt⟩
      | .empty => ⟨answers, L, made, none⟩
    else ⟨answer :: answers, L, made, none⟩

/-- What follows the inner loop: a full batch is flushed, then whatever is in the batch; a turn that
has read nothing looks whether the ring has been idle. -/
def handOver (loopNow : Nanos) (made : Bool) (L : Loop) : Loop × Next :=
  match if cfg.batchSize ≤ L.out.batch.length then flushBatch cfg env L.out else (L.out, true) with
  | (out, false) => ({ L with out }, .returns .sendError)
  | (out, true) =>
    let L := { L with lastProgress := if made then loopNow else L.lastProgress }
    match flushBatch cfg env out with
    | (out, false) => ({ L with out }, .returns .sendError)
    | (out, true) =>
      if made then ({ L with out }, .again)
      else if cfg.idleMs * 1000000 < env.clock out.ticks - L.lastProgress then
        ({ L with out := out.tick, idleTerminated := true }, .leave)
      else ({ L with out := out.tick }, .again)

/-- The body of the loop, with the answers not used. -/
def fastTurn (answers : List ReadAnswer) (L : Loop) : List ReadAnswer × Loop × Next :=
  let loopNow := env.clock L.out.ticks
  match flushDue cfg env loopNow { L with out := L.out.tick } with
  | (L, some exit) => (answers, L, .returns exit)
  | (L, none) =>
    match closeDue cfg env loopNow L with
    | (L, some exit) => (answers, L, .returns exit)
    | (L, none) =>
      match fillBatch cfg loopNow answers false L with
      | ⟨rest, L, _, some exit⟩ => (rest, L, .returns exit)
      | ⟨rest, L, made, none⟩ => (rest, handOver cfg env loopNow made L)

/-- The loop; when there are no more answers, a stop is requested. A turn reads at least once, so
that the number of answers bounds the number of turns. -/
def fastLoop : ℕ → List ReadAnswer → Loop → Loop × Option Exit
  | 0, _, L => (L, none)
  | turns + 1, answers, L =>
    if answers = [] ∨ (cfg.count ≠ 0 ∧ cfg.count ≤ L.sent) then (L, none)
    else
      match fastTurn cfg env answers L with
      | (answers, L, .again) => fastLoop turns answers L
      | (_, L, .leave) => (L, none)
      | (_, L, .returns exit) => (L, some exit)

/-- `run` with `plain_fast_path`, from `read_index` on. -/
def fastPath (readIndex : ℕ) (answers : List ReadAnswer) : Loop × Option Exit :=
  match fastLoop cfg env answers.length answers (.start cfg env readIndex) with
  | (L, some exit) => (L, some exit)
  | (L, none) => finishRun cfg env L

/-- `run`; echo mode, which has one destination, is left out. -/
def run (readIndex : ℕ) (answers : List ReadAnswer) : Loop × Option Exit :=
  if cfg.fecK = 0 ∧ cfg.testDropPct = 0 ∧ cfg.testReorderPct = 0 then
    fastPath cfg env readIndex answers
  else generalPath cfg env readIndex answers

end Sender
end PulseFanout
