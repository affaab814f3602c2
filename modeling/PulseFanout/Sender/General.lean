import PulseFanout.Sender.Emit

/-!
# The sender's loop (`sender.cpp`, `run`)

The general path of `run`: every turn of the loop looks at the clock, flushes a batch and closes a
generation that have waited long enough, and reads one frame off the ring. The frame gets the stream
of this sender and is encoded. With FEC it is added to the encoder and goes out as a data shard at
once, before the size of the generation is known; when the generation is full, when it has waited
too long or when the loop is left, its parity shards follow.

A run is given by what `ring.read` answers in each turn; after the last answer a stop is requested.
`Exit` says why `run` returns from within its loop: a run that leaves the loop closes what is open
and flushes (`finishRun`), a run that returns from within it does not.
-/

namespace PulseFanout
namespace Sender

open Framework Msg Multiplex Fec

/-- What `ring.read` answers. -/
inductive ReadAnswer
  /-- `kOk`; no frame if the bytes have not the length of a record. -/
  | ok (frame : Option Native)
  | lapped (resume : ℕ)
  | corrupt
  | empty

/-- Why `run` returns from within its loop. -/
inductive Exit
  | sendError
  | corrupt
  /-- `Encoder::add` returns false. -/
  | refused
  | thrown (error : String)
deriving DecidableEq

/-- The variables of `run`. History are `taken`, the frames read so far with their indices, and
`reads`, the answers of `ring.read`. -/
structure Loop where
  out : Channel
  encoder : Encoder
  fecGenId : BitVec 32 := 0
  fecFirstNs : Nanos := 0
  readIndex : ℕ
  sent : ℕ := 0
  lappedEvents : ℕ := 0
  skippedMessages : ℕ := 0
  lastProgress : Nanos
  idleTerminated : Bool := false
  taken : List (ℕ × Native) := []
  reads : List ReadAnswer := []

/-- `h.stream_id = …; h.stream_epoch = …`, in the header at the front of the frame. -/
def setStream (key : Key) : Native → Native
  | .trade m => .trade { m with
      header := { m.header with streamId := key.stream, streamEpoch := key.epoch } }
  | .bbo m => .bbo { m with
      header := { m.header with streamId := key.stream, streamEpoch := key.epoch } }
  | .orderBook m => .orderBook { m with
      header := { m.header with streamId := key.stream, streamEpoch := key.epoch } }

theorem Config.k_range (cfg : Config) :
    1 ≤ (if cfg.fecK = 0 then 1 else cfg.fecK) ∧
      (if cfg.fecK = 0 then 1 else cfg.fecK) ≤ kMaxGeneration := by
  have hle := cfg.fecK_le
  rw [kMaxGeneration] at hle ⊢
  split <;> omega

/-- The encoder that `run` constructs. -/
def Config.encoder (cfg : Config) : Encoder :=
  .fresh (if cfg.fecK = 0 then 1 else cfg.fecK) cfg.fecParity cfg.k_range cfg.fecParity_range

/-- The frame a record is sent as. -/
def encoded (cfg : Config) (m : Native) : List Byte := Wire.bytes (setStream cfg.key m)

/-- `encode` throws on a frame that is not valid. -/
theorem valid_of_encode {m : Native} {frame : List Byte} (h : Wire.encode m = .ok frame) :
    validateFrame m.header m.size = true := by
  by_contra hinvalid
  unfold Wire.encode at h
  rw [if_pos (by rw [Bool.not_eq_true] at hinvalid; rw [hinvalid]; rfl)] at h
  cases h

theorem encode_setStream {key : Key} {m : Native} {frame : List Byte}
    (h : Wire.encode (setStream key m) = .ok frame) : frame = Wire.bytes (setStream key m) := by
  rw [Wire.encode_eq _ (valid_of_encode h)] at h
  exact (Except.ok.inj h).symm

/-! ### One turn -/

variable (cfg : Config) (env : Env)

/-- `close_generation` -/
def closeGeneration (reason : BitVec 8) (L : Loop) : Loop × Option Exit :=
  if cfg.fecK = 0 ∨ L.encoder.empty then (L, none)
  else
    match L.encoder.close L.fecGenId reason with
    | .error error => (L, some (.thrown error))
    | .ok (built, encoder) =>
      match emitAll cfg env (built.parity :: built.extraParity) L.out with
      | (out, false) => ({ L with out, encoder }, some .sendError)
      | (out, true) =>
        ({ L with out, encoder, fecGenId := L.fecGenId + 1, fecFirstNs := 0 }, none)

/-- The frame goes into the encoder and out as a data shard. -/
def protectFrame (loopNow : Nanos) (frame : List Byte) (L : Loop) : Loop × Option Exit :=
  let fecFirstNs := if L.encoder.empty then loopNow else L.fecFirstNs
  let index := L.encoder.size
  match L.encoder.add frame with
  | (false, _) => ({ L with fecFirstNs }, some .refused)
  | (true, encoder) =>
    match emitDatagram cfg env (dataDatagram L.fecGenId index cfg.fecK frame) L.out with
    | (out, false) => ({ L with out, encoder, fecFirstNs }, some .sendError)
    | (out, true) =>
      let L := { L with out, encoder, fecFirstNs }
      if L.encoder.full then closeGeneration cfg env 0 L else (L, none)

/-- The frame goes out as it is. -/
def forwardFrame (frame : List Byte) (L : Loop) : Loop × Option Exit :=
  match emitDatagram cfg env frame L.out with
  | (out, false) => ({ L with out }, some .sendError)
  | (out, true) => ({ L with out }, none)

/-- The branch for `kOk`. -/
def takeFrame (loopNow : Nanos) (m : Native) (L : Loop) : Loop × Option Exit :=
  let L := { L with taken := L.taken ++ [(L.readIndex, m)] }
  match Wire.encode (setStream cfg.key m) with
  | .error error => (L, some (.thrown error))
  | .ok frame =>
    match if cfg.fecK = 0 then forwardFrame cfg env frame L
      else protectFrame cfg env loopNow frame L with
    | (L, some exit) => (L, some exit)
    | (L, none) =>
      ({ L with sent := L.sent + 1, readIndex := L.readIndex + 1, lastProgress := loopNow }, none)

/-- A batch that has waited for `batch_timeout_us` is flushed. -/
def flushDue (loopNow : Nanos) (L : Loop) : Loop × Option Exit :=
  if L.out.batch ≠ [] ∧ cfg.batchTimeoutUs * 1000 ≤ loopNow - L.out.firstNs then
    match flushBatch cfg env L.out with
    | (out, false) => ({ L with out }, some .sendError)
    | (out, true) => ({ L with out }, none)
  else (L, none)

/-- A generation that has waited for `fec_timeout_us` is closed. -/
def closeDue (loopNow : Nanos) (L : Loop) : Loop × Option Exit :=
  if cfg.fecK ≠ 0 ∧ !L.encoder.empty ∧ cfg.fecTimeoutUs * 1000 ≤ loopNow - L.fecFirstNs then
    closeGeneration cfg env 1 L
  else (L, none)

/-- How a turn ends. -/
inductive Next
  | again
  | leave
  | returns (exit : Exit)

/-- The branch for `kEmpty`. -/
def idle (L : Loop) : Loop × Next :=
  let now := env.clock L.out.ticks
  match flushPending cfg env now false L.out.tick with
  | (out, false) => ({ L with out }, .returns .sendError)
  | (out, true) =>
    match flushBatch cfg env out with
    | (out, false) => ({ L with out }, .returns .sendError)
    | (out, true) =>
      if cfg.idleMs * 1000000 < now - L.lastProgress then
        ({ L with out, idleTerminated := true }, .leave)
      else ({ L with out }, .again)

/-- What is done with the answer of `ring.read`. -/
def handle (loopNow : Nanos) (answer : ReadAnswer) (L : Loop) : Loop × Next :=
  match answer with
  | .ok none => (L, .returns (.thrown "invalid native message"))
  | .ok (some m) =>
    match takeFrame cfg env loopNow m L with
    | (L, some exit) => (L, .returns exit)
    | (L, none) => (L, .again)
  | .lapped resume =>
    -- nothing is skipped if `resume` is not ahead
    ({ L with
        lappedEvents := L.lappedEvents + 1
        skippedMessages := L.skippedMessages + (resume - L.readIndex)
        readIndex := resume }, .again)
  | .corrupt => (L, .returns .corrupt)
  | .empty => idle cfg env L

/-- The body of the loop. -/
def turn (answer : ReadAnswer) (L : Loop) : Loop × Next :=
  let loopNow := env.clock L.out.ticks
  match flushDue cfg env loopNow { L with out := L.out.tick } with
  | (L, some exit) => (L, .returns exit)
  | (L, none) =>
    match closeDue cfg env loopNow L with
    | (L, some exit) => (L, .returns exit)
    | (L, none) => handle cfg env loopNow answer { L with reads := L.reads ++ [answer] }

/-! ### The run -/

/-- The loop; when there are no more answers, a stop is requested. -/
def loop : List ReadAnswer → Loop → Loop × Option Exit
  | [], L => (L, none)
  | answer :: answers, L =>
    if cfg.count ≠ 0 ∧ cfg.count ≤ L.sent then (L, none)
    else
      match turn cfg env answer L with
      | (L, .again) => loop answers L
      | (L, .leave) => (L, none)
      | (L, .returns exit) => (L, some exit)

/-- What follows the loop. -/
def finishRun (L : Loop) : Loop × Option Exit :=
  match closeGeneration cfg env 2 L with
  | (L, some exit) => (L, some exit)
  | (L, none) =>
    match flushPending cfg env (env.clock L.out.ticks) true L.out.tick with
    | (out, false) => ({ L with out }, some .sendError)
    | (out, true) =>
      match flushBatch cfg env out with
      | (out, false) => ({ L with out }, some .sendError)
      | (out, true) => ({ L with out }, none)

/-- Before the loop the clock is read for `last_progress` and for `sender_start_ns`. -/
def Loop.start (readIndex : ℕ) : Loop where
  out := { ticks := 2 }
  encoder := cfg.encoder
  readIndex := readIndex
  lastProgress := env.clock 0

/-- `run`, from `read_index` on. -/
def generalPath (readIndex : ℕ) (answers : List ReadAnswer) : Loop × Option Exit :=
  match loop cfg env answers (.start cfg env readIndex) with
  | (L, some exit) => (L, some exit)
  | (L, none) => finishRun cfg env L

end Sender
end PulseFanout
