import PulseFanout.Durable.Store
import PulseFanout.Framework.Framing
import PulseFanout.Framework.Machine
import PulseFanout.Wire.Message

/-!
# The two relays (`durable_relay.py`, `send` and `receive`)

The sending relay runs two threads over its outbox: the main thread takes frames from the
local sender and enqueues them, then sets `ingress_done` and joins the other one; `transmit`
sends the first row of the outbox, waits for an acknowledgement with the row's id and retires
the row. The receiving relay takes frames off its connections, commits each to its inbox and
only then acknowledges it; its `deliver` thread offers the first row of the inbox to the local
receiver and retires it when that answers with the byte one.

Each thread is a program counter, with one step for every access to what it shares with
another: the stores, the flags `stop` and `ingress_done`, the connections. Deadlines and
timeouts are choices of the action (`fail`, `joinTimeout`, `drop`). A process that dies loses
everything but its database (`crashSend`, `crashReceive`).

A connection carries bytes. `Conn.up` and `Conn.down` are those written and not yet read; a
cut keeps a prefix of each and lets nothing more through. `exact` collects bytes until it has
enough, and nothing happens before it has, so it is modelled as reading when they are there.

Four fields are history and read by no step: `enqueued` and `accepted`, the rows ever put into
the outbox and the inbox, `log`, what passed between `deliver` and the local receiver, and
`raced`, which says where `transmit` stood when `ingress_done` was set.
-/

namespace PulseFanout
namespace Durable

open Framework

/-! ### Frames -/

/-- The letters `PFD1`. -/
def magic : BitVec 32 := 0x50464431

/-- The header of a frame: magic, session, row id, length (`"PFD1"`, sixteen bytes, `"!QH"`). -/
def header : Codec (BitVec 32 × Session × BitVec 64 × BitVec 16) :=
  Scalar.u32.pair <| (Codec.uint 16 rfl).pair <| Scalar.u64.pair Scalar.u16

/-- The lengths a relay takes. -/
def sizeOk (size : BitVec 16) : Option ℕ :=
  if 1 ≤ size.toNat ∧ size.toNat ≤ maxFrame then some size.toNat else none

/-- Frames between the relays, as `receive` reads them. -/
def frames : Framing ((BitVec 32 × Session × BitVec 64 × BitVec 16) × List Byte) :=
  Framing.sized header (by decide) fun h => if h.1 = magic then sizeOk h.2.2.2 else none

/-- Acknowledgements: the number of the row, in eight bytes. -/
def acks : Framing (BitVec 64) := Framing.ofCodec Scalar.u64 (by decide)

/-- Frames between a relay and its local process: two bytes of length. -/
def localFrames : Framing (BitVec 16 × List Byte) :=
  Framing.sized Scalar.u16 (by decide) sizeOk

/-- The frame of a row. -/
def frameOf (row : Row Session) : (BitVec 32 × Session × BitVec 64 × BitVec 16) × List Byte :=
  ((magic, row.session, BitVec.ofNat 64 row.id, BitVec.ofNat 16 row.payload.length), row.payload)

/-- The local frame of a row. -/
def localFrameOf (row : Row Session) : BitVec 16 × List Byte :=
  (BitVec.ofNat 16 row.payload.length, row.payload)

theorem sizeOk_length {payload : List Byte}
    (h : 1 ≤ payload.length ∧ payload.length ≤ maxFrame) :
    sizeOk (BitVec.ofNat 16 payload.length) = some payload.length := by
  have hsmall : (BitVec.ofNat 16 payload.length).toNat = payload.length := by
    rw [BitVec.toNat_ofNat]
    exact Nat.mod_eq_of_lt (lt_of_le_of_lt h.2 (by decide))
  rw [sizeOk, hsmall, if_pos h]

theorem frameOf_valid {row : Row Session}
    (h : 1 ≤ row.payload.length ∧ row.payload.length ≤ maxFrame) : frames.Valid (frameOf row) := by
  change (if magic = magic then sizeOk (BitVec.ofNat 16 row.payload.length) else none) = _
  rw [if_pos rfl, sizeOk_length h]
  rfl

theorem localFrameOf_valid {row : Row Session}
    (h : 1 ≤ row.payload.length ∧ row.payload.length ≤ maxFrame) :
    localFrames.Valid (localFrameOf row) := sizeOk_length h

/-! ### Connections -/

/-- A connection from the sending to the receiving relay. -/
structure Conn where
  up : List Byte := []
  down : List Byte := []
  /-- Bytes still get through. -/
  link : Bool := true
deriving DecidableEq

namespace Conn

/-- The sender writes; what it writes to a dead connection is lost. -/
def send (c : Conn) (bytes : List Byte) : Conn :=
  if c.link then { c with up := c.up ++ bytes } else c

/-- The receiver writes. -/
def reply (c : Conn) (bytes : List Byte) : Conn :=
  if c.link then { c with down := c.down ++ bytes } else c

/-- The connection breaks and only prefixes of what is in flight arrive. -/
def cut (c : Conn) (i j : ℕ) : Conn := ⟨c.up.take i, c.down.take j, false⟩

/-- The sender closes; what it has written may still arrive. -/
def close (c : Conn) : Conn := { c with link := false }

/-- The receiver closes and reads no more. -/
def hangUp (c : Conn) : Conn := { c with up := [], link := false }

end Conn

/-! ### The sending relay -/

/-- Where the main thread of `send` is. -/
inductive MainPc
  /-- Taking local frames. -/
  | ingress
  /-- `ingress_done` is set; in `worker.join`. -/
  | draining
  /-- `send` has returned. -/
  | returned
  /-- `send` has raised. -/
  | raised
deriving DecidableEq

/-- Where `transmit` is. -/
inductive TransmitPc
  /-- At `while not stop.is_set()`. -/
  | loop
  /-- At `store.first()`. -/
  | fetch
  /-- `first` returned `None`; at the test of `ingress_done`. -/
  | idle
  /-- About to connect or to send. -/
  | have (row : Row Session)
  /-- Waiting for the acknowledgement. -/
  | sent (row : Row Session)
  /-- About to retire. -/
  | acked (row : Row Session)
  /-- Out of the loop, closing the stream. -/
  | closing
  | finished
deriving DecidableEq

/-- The row `transmit` is working on. -/
def TransmitPc.row? : TransmitPc → Option (Row Session)
  | .have row | .sent row | .acked row => some row
  | _ => none

/-- The sending relay. -/
structure SendRelay where
  outbox : Store Session
  main : MainPc := .ingress
  transmit : TransmitPc := .loop
  /-- The open connection, by its place among all of them. -/
  stream : Option ℕ := none
  stop : Bool := false
  ingressDone : Bool := false
  failures : ℕ := 0
  /-- History: the rows ever enqueued. -/
  enqueued : List (Row Session) := []
  /-- History: when `ingress_done` was set, `transmit` had seen an empty outbox and not yet
  tested the flag, and the outbox was no longer empty. -/
  raced : Bool := false

/-- Steps of the main thread. -/
inductive MainAction
  /-- A local frame is enqueued; when the spool is full nothing changes and it is tried again. What
  SQLite raises is not retried: that is `fail`. -/
  | enqueue (payload : List Byte)
  /-- End of input, `stop`, or `--replay-only`: `ingress_done.set()`. -/
  | endInput
  /-- Anything that raises before that. -/
  | fail
  /-- `worker.join` returns because the thread has ended. -/
  | join
  /-- It returns because the time is up. -/
  | joinTimeout

/-- Steps of `transmit`. -/
inductive TransmitAction
  | testStop
  | fetch
  | testDone
  | connect
  | send
  | readAck
  | retire
  /-- Something raises; `retry` if it is retryable and the deadline has not passed. -/
  | fail (retry : Bool)
  /-- `stream.unwrap().close()`, which may raise. -/
  | close (ok : Bool)

namespace SendRelay

/-- One step of the main thread. -/
def stepMain (R : SendRelay) : MainAction → Option SendRelay
  | .enqueue payload =>
    if R.main = .ingress then
      match R.outbox.enqueue .ample payload with
      | (.ok id, outbox) =>
        some { R with outbox, enqueued := R.enqueued ++ [⟨id, R.outbox.session, 0, payload⟩] }
      | (.error _, _) => some R
    else none
  | .endInput =>
    if R.main = .ingress then
      some { R with
        main := .draining
        ingressDone := true
        raced := R.transmit = .idle ∧ R.outbox.pending ≠ [] }
    else none
  | .fail => if R.main = .ingress then some { R with main := .raised, stop := true } else none
  | .join =>
    if R.main = .draining ∧ R.transmit = .finished then
      -- `if failures: raise`, and in either case `finally: stop.set()`
      some { R with main := if R.failures = 0 then .returned else .raised, stop := true }
    else none
  | .joinTimeout =>
    if R.main = .draining ∧ R.transmit ≠ .finished then
      some { R with main := .raised, stop := true }
    else none

/-- `failures.append(error); stop.set()`, the end of the thread. -/
def die (R : SendRelay) : SendRelay :=
  { R with stream := none, transmit := .finished, failures := R.failures + 1, stop := true }

/-- The connections when the sender has closed its own. -/
def closed (R : SendRelay) (conns : List Conn) : List Conn :=
  match R.stream with
  | none => conns
  | some i => conns.modify i Conn.close

/-- One step of `transmit`. -/
def stepTransmit (R : SendRelay) (conns : List Conn) :
    TransmitAction → Option (SendRelay × List Conn)
  | .testStop =>
    if R.transmit = .loop then
      some ({ R with transmit := if R.stop then .closing else .fetch }, conns)
    else none
  | .fetch =>
    if R.transmit = .fetch then
      match R.outbox.first with
      | none => some ({ R with transmit := .idle }, conns)
      | some row => some ({ R with transmit := .have row }, conns)
    else none
  | .testDone =>
    if R.transmit = .idle then
      some ({ R with transmit := if R.ingressDone then .closing else .loop }, conns)
    else none
  | .connect =>
    match R.transmit, R.stream with
    | .have _, none => some ({ R with stream := some conns.length }, conns ++ [{}])
    | _, _ => none
  | .send =>
    match R.transmit, R.stream with
    | .have row, some i =>
      some ({ R with transmit := .sent row },
        conns.modify i fun c => c.send (frames.put (frameOf row)))
    | _, _ => none
  | .readAck =>
    match R.transmit, R.stream with
    | .sent row, some i =>
      match conns[i]? with
      | none => none
      | some c =>
        match acks.get c.down with
        | .item number rest =>
          -- any other number raises
          if number.toNat = row.id then
            some ({ R with transmit := .acked row }, conns.set i { c with down := rest })
          else none
        | _ => none
    | _, _ => none
  | .retire =>
    match R.transmit with
    | .acked row => some ({ R with outbox := R.outbox.retire row.id, transmit := .loop }, conns)
    | _ => none
  | .fail retry =>
    if retry then
      -- the inner `except` covers connecting, sending, the acknowledgement and the retirement
      if R.transmit.row?.isSome then
        some ({ R with stream := none, transmit := .loop }, R.closed conns)
      else none
    else if R.transmit ≠ .finished then some (R.die, R.closed conns)
    else none
  | .close ok =>
    if R.transmit = .closing then
      some (if ok then { R with stream := none, transmit := .finished } else R.die, R.closed conns)
    else none

/-- The process dies and is started again on the same database. -/
def restart (R : SendRelay) : SendRelay := { outbox := R.outbox, enqueued := R.enqueued }

end SendRelay

/-! ### The receiving relay -/

/-- The connection of `deliver` to the local receiver. -/
structure LocalConn where
  out : List Byte := []
  reply : List Byte := []
  link : Bool := true

/-- Where `deliver` is. -/
inductive DeliverPc
  /-- At `store.first()`. -/
  | fetch
  /-- About to connect or to send. -/
  | have (row : Row Session)
  /-- Waiting for the answer. -/
  | offered (row : Row Session)
  /-- About to retire. -/
  | got (row : Row Session)

/-- The row `deliver` is working on. -/
def DeliverPc.row? : DeliverPc → Option (Row Session)
  | .fetch => none
  | .have row | .offered row | .got row => some row

/-- What passes between `deliver`, the inbox and the local receiver. -/
inductive LocalEvent
  /-- A row was sent to the local receiver. -/
  | offered (id : ℕ) (payload : List Byte)
  /-- The local receiver answered it with the byte one. -/
  | acked (id : ℕ)
  /-- It was retired from the inbox. -/
  | retired (id : ℕ)
deriving DecidableEq

/-- The receiving relay. -/
structure RecvRelay where
  inbox : Store Session
  /-- The connection and number of an acknowledgement that is due. -/
  net : Option (ℕ × BitVec 64) := none
  deliver : DeliverPc := .fetch
  peer : Option LocalConn := none
  /-- History: the rows ever accepted, of all sessions. -/
  accepted : List (Row Session) := []
  /-- History: what passed at the local side. -/
  log : List LocalEvent := []

/-- Steps of the network thread. -/
inductive NetAction
  /-- A frame of connection `i` is read and given to `accept`. -/
  | receive (i : ℕ)
  /-- `stream.sendall` of the acknowledgement. -/
  | ack
  /-- Connection `i` is given up. -/
  | drop (i : ℕ)

/-- Steps of `deliver` and of the local receiver. -/
inductive DeliverAction
  | fetch
  | connect
  | offer
  /-- The local receiver reads the frame and answers with `byte`. -/
  | answer (byte : Byte)
  | read
  | retire
  /-- Something raises and is retried. -/
  | fail
  /-- The local connection breaks. -/
  | cut (i j : ℕ)

namespace RecvRelay

/-- `store.accept`, with the history. What SQLite raises is caught nowhere and rolled back: that is
`crashReceive`. -/
def take (R : RecvRelay) (session : Session) (sequence : ℕ) (payload : List Byte) :
    Except Raise RecvRelay :=
  match R.inbox.accept .ample session sequence payload with
  | (.error e, _) => .error e
  | (.ok false, inbox) => .ok { R with inbox }
  | (.ok true, inbox) =>
    .ok { R with
      inbox
      accepted := R.accepted ++ [⟨R.inbox.lastId + 1, session, sequence, payload⟩] }

/-- One step of the network thread. -/
def stepNet (R : RecvRelay) (conns : List Conn) : NetAction → Option (RecvRelay × List Conn)
  | .receive i =>
    match R.net, conns[i]? with
    | none, some c =>
      match frames.get c.up with
      | .short => none
      | .bad => some (R, conns.set i c.hangUp)
      | .item ((_, session, sequence, _), payload) rest =>
        match R.take session sequence.toNat payload with
        | .ok R => some ({ R with net := some (i, sequence) }, conns.set i { c with up := rest })
        -- not caught: the process dies
        | .error (.operationalError _) => none
        | .error _ => some (R, conns.set i c.hangUp)
    | _, _ => none
  | .ack =>
    match R.net with
    | none => none
    | some (i, number) =>
      some ({ R with net := none }, conns.modify i fun c => c.reply (acks.put number))
  | .drop i =>
    some ({ R with net := R.net.filter fun due => due.1 ≠ i }, conns.modify i Conn.hangUp)

/-- One step of `deliver` or of the local receiver. -/
def stepDeliver (R : RecvRelay) : DeliverAction → Option RecvRelay
  | .fetch =>
    match R.deliver, R.inbox.first with
    | .fetch, some row => some { R with deliver := .have row }
    | _, _ => none
  | .connect =>
    match R.deliver, R.peer with
    | .have _, none => some { R with peer := some {} }
    | _, _ => none
  | .offer =>
    match R.deliver, R.peer with
    | .have row, some c =>
      some { R with
        deliver := .offered row
        peer := some (if c.link then { c with out := c.out ++ localFrames.put (localFrameOf row) }
          else c)
        log := R.log ++ [.offered row.id row.payload] }
    | _, _ => none
  | .answer byte =>
    match R.deliver, R.peer with
    | .offered row, some c =>
      match localFrames.get c.out with
      | .item _ rest =>
        some { R with
          peer := some { c with
            out := rest
            reply := if c.link then c.reply ++ [byte] else c.reply }
          log := if byte = 1 then R.log ++ [.acked row.id] else R.log }
      | _ => none
    | _, _ => none
  | .read =>
    match R.deliver, R.peer with
    | .offered row, some c =>
      match c.reply with
      | byte :: rest =>
        -- any other byte raises
        if byte = 1 then some { R with deliver := .got row, peer := some { c with reply := rest } }
        else none
      | [] => none
    | _, _ => none
  | .retire =>
    match R.deliver with
    | .got row =>
      some { R with
        inbox := R.inbox.retire row.id
        deliver := .fetch
        log := R.log ++ [.retired row.id] }
    | _ => none
  | .fail =>
    if R.deliver.row?.isSome then some { R with deliver := .fetch, peer := none } else none
  | .cut i j =>
    some { R with peer := R.peer.map fun c => ⟨c.out.take i, c.reply.take j, false⟩ }

/-- The process dies and is started again on the same database. -/
def restart (R : RecvRelay) : RecvRelay :=
  { inbox := R.inbox, accepted := R.accepted, log := R.log }

end RecvRelay

/-! ### The system -/

/-- Both relays and the connections between them. -/
structure World where
  send : SendRelay
  conns : List Conn
  recv : RecvRelay

/-- What can happen. -/
inductive Action
  | main (a : MainAction)
  | transmit (a : TransmitAction)
  | net (a : NetAction)
  | deliver (a : DeliverAction)
  /-- Connection `i` breaks: the first `a` and `b` bytes in flight still arrive. -/
  | cut (i a b : ℕ)
  | crashSend
  | crashReceive
  /-- A frame of another sending relay is given to `accept`. -/
  | foreign (session : Session) (sequence : ℕ) (payload : List Byte)

namespace World

/-- One step of the system. -/
def step (W : World) : Action → Option World
  | .main a => (W.send.stepMain a).map fun send => { W with send }
  | .transmit a =>
    (W.send.stepTransmit W.conns a).map fun (send, conns) => { W with send, conns }
  | .net a => (W.recv.stepNet W.conns a).map fun (recv, conns) => { W with recv, conns }
  | .deliver a => (W.recv.stepDeliver a).map fun recv => { W with recv }
  | .cut i a b => some { W with conns := W.conns.modify i fun c => c.cut a b }
  | .crashSend => some { W with send := W.send.restart, conns := W.send.closed W.conns }
  | .crashReceive => some { W with recv := W.recv.restart, conns := W.conns.map Conn.hangUp }
  | .foreign session sequence payload =>
    if session = W.send.outbox.session then none
    else (W.recv.take session sequence payload).toOption.map fun recv => { W with recv }

end World

/-- The system on two new databases. -/
def relays (outbox inbox : ℕ × String × Session) : Machine World Action where
  start :=
    { send := { outbox := Store.create outbox.1 outbox.2.1 outbox.2.2 }
      conns := []
      recv := { inbox := Store.create inbox.1 inbox.2.1 inbox.2.2 } }
  step := World.step

/-! ### What a step can have done

One relation for each thread, with what was tested on the way. Proofs about the threads go by
cases on these and never open the step functions. -/

/-- A step of the main thread of `send`. -/
inductive MainStep (R : SendRelay) : MainAction → SendRelay → Prop
  | enqueued {payload : List Byte} (hmain : R.main = .ingress)
    (hsize : 1 ≤ payload.length ∧ payload.length ≤ maxFrame)
    (hroom : R.outbox.lastId + 1 < 2 ^ 63) :
    MainStep R (.enqueue payload) { R with
      outbox := R.outbox.append R.outbox.session 0 payload
      enqueued := R.enqueued ++ [⟨R.outbox.lastId + 1, R.outbox.session, 0, payload⟩] }
  /-- The spool was full, or the frame of a wrong size. -/
  | refused {payload : List Byte} : MainStep R (.enqueue payload) R
  | ended (hmain : R.main = .ingress) :
    MainStep R .endInput { R with
      main := .draining
      ingressDone := true
      raced := R.transmit = .idle ∧ R.outbox.pending ≠ [] }
  /-- `send` raises: before the end of input, because of a failure of `transmit`, or because the
  time was up. -/
  | raised {a : MainAction} (hmain : R.main = .ingress ∨ R.main = .draining) :
    MainStep R a { R with main := .raised, stop := true }
  | returned (hmain : R.main = .draining) (hpc : R.transmit = .finished) (hfail : R.failures = 0) :
    MainStep R .join { R with main := .returned, stop := true }

theorem SendRelay.stepMain_cases {R R' : SendRelay} {a : MainAction}
    (h : R.stepMain a = some R') : MainStep R a R' := by
  cases a with
  | enqueue payload =>
    simp only [stepMain] at h
    split at h
    · next hmain =>
      rcases R.outbox.enqueue_outcome .ample payload with ⟨e, heq⟩ | ⟨hsize, hroom, -, heq⟩
      · rw [heq] at h
        cases h
        exact .refused
      · rw [heq] at h
        cases h
        exact .enqueued hmain hsize hroom
    · cases h
  | endInput =>
    simp only [stepMain] at h
    split at h
    · next hmain => cases h; exact .ended hmain
    · cases h
  | fail =>
    simp only [stepMain] at h
    split at h
    · next hmain => cases h; exact .raised (Or.inl hmain)
    · cases h
  | join =>
    simp only [stepMain] at h
    split at h
    · next hmain =>
      cases h
      split
      · next hzero => exact .returned hmain.1 hmain.2 hzero
      · exact .raised (Or.inr hmain.1)
    · cases h
  | joinTimeout =>
    simp only [stepMain] at h
    split at h
    · next hmain => cases h; exact .raised (Or.inr hmain.1)
    · cases h

/-- A step of `transmit`. -/
inductive TransmitStep (R : SendRelay) (conns : List Conn) : SendRelay → List Conn → Prop
  /-- Out of the loop because `stop` is set. -/
  | stopped (hpc : R.transmit = .loop) (hstop : R.stop = true) :
    TransmitStep R conns { R with transmit := .closing } conns
  | again (hpc : R.transmit = .loop) :
    TransmitStep R conns { R with transmit := .fetch } conns
  /-- `first` found nothing. -/
  | empty (hpc : R.transmit = .fetch) (hfirst : R.outbox.first = none) :
    TransmitStep R conns { R with transmit := .idle } conns
  | fetched {row : Row Session} (hpc : R.transmit = .fetch) (hfirst : R.outbox.first = some row) :
    TransmitStep R conns { R with transmit := .have row } conns
  /-- Out of the loop because `ingress_done` is set. -/
  | done (hpc : R.transmit = .idle) (hdone : R.ingressDone = true) :
    TransmitStep R conns { R with transmit := .closing } conns
  | waited (hpc : R.transmit = .idle) (hdone : R.ingressDone = false) :
    TransmitStep R conns { R with transmit := .loop } conns
  | connected {row : Row Session} (hpc : R.transmit = .have row) :
    TransmitStep R conns { R with stream := some conns.length } (conns ++ [({} : Conn)])
  | sent {row : Row Session} {i : ℕ} (hpc : R.transmit = .have row) :
    TransmitStep R conns { R with transmit := .sent row }
      (conns.modify i fun c => c.send (frames.put (frameOf row)))
  | acked {row : Row Session} {i : ℕ} {c : Conn} {number : BitVec 64} {rest : List Byte}
    (hpc : R.transmit = .sent row) (hconn : conns[i]? = some c)
    (hack : acks.get c.down = .item number rest) (hid : number.toNat = row.id) :
    TransmitStep R conns { R with transmit := .acked row } (conns.set i { c with down := rest })
  | retired {row : Row Session} (hpc : R.transmit = .acked row) :
    TransmitStep R conns { R with outbox := R.outbox.retire row.id, transmit := .loop } conns
  | retried {row : Row Session} (hrow : R.transmit.row? = some row) :
    TransmitStep R conns { R with stream := none, transmit := .loop } (R.closed conns)
  | died (hpc : R.transmit ≠ .finished) : TransmitStep R conns R.die (R.closed conns)
  | finished (hpc : R.transmit = .closing) :
    TransmitStep R conns { R with stream := none, transmit := .finished } (R.closed conns)

theorem SendRelay.stepTransmit_cases {R R' : SendRelay} {conns conns' : List Conn}
    {a : TransmitAction} (h : R.stepTransmit conns a = some (R', conns')) :
    TransmitStep R conns R' conns' := by
  cases a with
  | testStop =>
    simp only [stepTransmit] at h
    split at h
    · next hpc =>
      cases h
      split
      · next hstop => exact .stopped hpc hstop
      · exact .again hpc
    · cases h
  | fetch =>
    simp only [stepTransmit] at h
    split at h
    · next hpc =>
      split at h
      · next hfirst => cases h; exact .empty hpc hfirst
      · next hfirst => cases h; exact .fetched hpc hfirst
    · cases h
  | testDone =>
    simp only [stepTransmit] at h
    split at h
    · next hpc =>
      cases h
      split
      · next hdone => exact .done hpc hdone
      · next hdone => exact .waited hpc (Bool.eq_false_of_not_eq_true hdone)
    · cases h
  | connect =>
    simp only [stepTransmit] at h
    split at h
    · next hpc _ => cases h; exact .connected hpc
    · cases h
  | send =>
    simp only [stepTransmit] at h
    split at h
    · next hpc _ => cases h; exact .sent hpc
    · cases h
  | readAck =>
    simp only [stepTransmit] at h
    split at h
    · next hpc _ =>
      split at h
      · cases h
      · next hconn =>
        split at h
        · next hack =>
          split at h
          · next hid => cases h; exact .acked hpc hconn hack hid
          · cases h
        · cases h
    · cases h
  | retire =>
    simp only [stepTransmit] at h
    split at h
    · next hpc => cases h; exact .retired hpc
    · cases h
  | fail retry =>
    simp only [stepTransmit] at h
    split at h
    · split at h
      · next hsome =>
        obtain ⟨row, hrow⟩ := Option.isSome_iff_exists.mp hsome
        cases h
        exact .retried hrow
      · cases h
    · split at h
      · next hpc => cases h; exact .died hpc
      · cases h
  | close ok =>
    simp only [stepTransmit] at h
    split at h
    · next hpc =>
      cases h
      split
      · exact .finished hpc
      · exact .died (by rw [hpc]; exact nofun)
    · cases h

/-- A step of `deliver` or of the local receiver. -/
inductive DeliverStep (R : RecvRelay) : RecvRelay → Prop
  | fetched {row : Row Session} (hpc : R.deliver = .fetch) (hfirst : R.inbox.first = some row) :
    DeliverStep R { R with deliver := .have row }
  | connected {row : Row Session} (hpc : R.deliver = .have row) :
    DeliverStep R { R with peer := some {} }
  | offered {row : Row Session} {c : LocalConn} (hpc : R.deliver = .have row)
    (hpeer : R.peer = some c) :
    DeliverStep R { R with
      deliver := .offered row
      peer := some (if c.link then { c with out := c.out ++ localFrames.put (localFrameOf row) }
        else c)
      log := R.log ++ [.offered row.id row.payload] }
  /-- The local receiver has the frame and answers it. -/
  | answered {row : Row Session} {c : LocalConn} (byte : Byte) {item : BitVec 16 × List Byte}
    {rest : List Byte} (hpc : R.deliver = .offered row) (hpeer : R.peer = some c)
    (hitem : localFrames.get c.out = .item item rest) :
    DeliverStep R { R with
      peer := some { c with
        out := rest
        reply := if c.link then c.reply ++ [byte] else c.reply }
      log := if byte = 1 then R.log ++ [.acked row.id] else R.log }
  /-- The answer is the byte one. -/
  | read {row : Row Session} {c : LocalConn} {rest : List Byte} (hpc : R.deliver = .offered row)
    (hpeer : R.peer = some c) (hreply : c.reply = 1 :: rest) :
    DeliverStep R { R with deliver := .got row, peer := some { c with reply := rest } }
  | retired {row : Row Session} (hpc : R.deliver = .got row) :
    DeliverStep R { R with
      inbox := R.inbox.retire row.id
      deliver := .fetch
      log := R.log ++ [.retired row.id] }
  | failed : DeliverStep R { R with deliver := .fetch, peer := none }
  | cut (i j : ℕ) :
    DeliverStep R { R with peer := R.peer.map fun c => ⟨c.out.take i, c.reply.take j, false⟩ }

theorem RecvRelay.stepDeliver_cases {R R' : RecvRelay} {a : DeliverAction}
    (h : R.stepDeliver a = some R') : DeliverStep R R' := by
  cases a with
  | fetch =>
    simp only [stepDeliver] at h
    split at h
    · next hpc hfirst => cases h; exact .fetched hpc hfirst
    · cases h
  | connect =>
    simp only [stepDeliver] at h
    split at h
    · next hpc _ => cases h; exact .connected hpc
    · cases h
  | offer =>
    simp only [stepDeliver] at h
    split at h
    · next hpc hpeer => cases h; exact .offered hpc hpeer
    · cases h
  | answer byte =>
    simp only [stepDeliver] at h
    split at h
    · next hpc hpeer =>
      split at h
      · next hitem => cases h; exact .answered byte hpc hpeer hitem
      · cases h
    · cases h
  | read =>
    simp only [stepDeliver] at h
    split at h
    · next hpc hpeer =>
      split at h
      · next hreply =>
        split at h
        · next hone =>
          subst hone
          cases h
          exact .read hpc hpeer hreply
        · cases h
      · cases h
    · cases h
  | retire =>
    simp only [stepDeliver] at h
    split at h
    · next hpc => cases h; exact .retired hpc
    · cases h
  | fail =>
    simp only [stepDeliver] at h
    split at h
    · cases h; exact .failed
    · cases h
  | cut i j =>
    cases h
    exact .cut i j

/-- The local side leaves the marks and the network thread alone. -/
theorem DeliverStep.frame {R R' : RecvRelay} (h : DeliverStep R R') :
    R'.accepted = R.accepted ∧ (∀ session, R'.inbox.high session = R.inbox.high session) ∧
      R'.net = R.net := by
  cases h <;> exact ⟨rfl, fun _ => rfl, rfl⟩

/-- What a step of the system does to the sending relay. -/
theorem World.step_send {W W' : World} {a : Action} (h : W.step a = some W') :
    (∃ b, a = .main b ∧ W.send.stepMain b = some W'.send) ∨
      (∃ b, W.send.stepTransmit W.conns b = some (W'.send, W'.conns)) ∨
      W'.send = W.send.restart ∨ W'.send = W.send := by
  cases a with
  | main b =>
    obtain ⟨send, hmain, rfl⟩ := Option.map_eq_some_iff.mp h
    exact Or.inl ⟨b, rfl, hmain⟩
  | transmit b =>
    obtain ⟨⟨send, conns⟩, htransmit, rfl⟩ := Option.map_eq_some_iff.mp h
    exact Or.inr (Or.inl ⟨b, htransmit⟩)
  | net b | deliver b =>
    obtain ⟨_, -, rfl⟩ := Option.map_eq_some_iff.mp h
    exact Or.inr (Or.inr (Or.inr rfl))
  | cut | crashReceive =>
    cases h
    exact Or.inr (Or.inr (Or.inr rfl))
  | crashSend =>
    cases h
    exact Or.inr (Or.inr (Or.inl rfl))
  | foreign session sequence payload =>
    simp only [step] at h
    split at h
    · cases h
    · obtain ⟨_, -, rfl⟩ := Option.map_eq_some_iff.mp h
      exact Or.inr (Or.inr (Or.inr rfl))

/-- What a step of the relays does to the rows of the sending one. -/
theorem World.step_enqueued {W W' : World} {a : Action} (h : W.step a = some W') :
    W'.send.outbox.session = W.send.outbox.session ∧
      (W'.send.enqueued = W.send.enqueued ∨
        ∃ payload row, a = .main (.enqueue payload) ∧ row.payload = payload ∧
          W'.send.enqueued = W.send.enqueued ++ [row]) := by
  rcases W.step_send h with ⟨b, rfl, hmain⟩ | ⟨b, htransmit⟩ | hrestart | hsame
  · generalize W'.send = send at hmain ⊢
    cases SendRelay.stepMain_cases hmain with
    | enqueued => exact ⟨rfl, Or.inr ⟨_, _, rfl, rfl, rfl⟩⟩
    | refused | ended | raised | returned => exact ⟨rfl, Or.inl rfl⟩
  · generalize W'.send = send at htransmit ⊢
    generalize W'.conns = conns at htransmit
    cases SendRelay.stepTransmit_cases htransmit with
    | _ => exact ⟨rfl, Or.inl rfl⟩
  · rw [hrestart]
    exact ⟨rfl, Or.inl rfl⟩
  · rw [hsame]
    exact ⟨rfl, Or.inl rfl⟩

end Durable
end PulseFanout
