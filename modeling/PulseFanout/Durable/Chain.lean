import PulseFanout.Durable.Safety
import PulseFanout.Receiver.Plain
import PulseFanout.Transport.Segmentation

/-!
# From the sender to the output ring (`--durable-acks`, `--ack-publish`)

In durable mode the two relays stand between the sender and the receiver. The sender counts a frame
when the sending relay has answered it with the byte one, which that does after the frame is in its
outbox; the receiving relay retires a row when the receiver has answered it with the byte one, which
that does after the frame was published, or found to be published before.

`Chain` puts the four processes together: the relays of `Durable.Relay`, with the sender at one end
(`flush_batch_direct` on a stream socket) and the receiver of `Receiver.Loop` at the other
(`--unix-listen --ack-publish --stream-reconnect`). All that the relays can do they still do: crash,
lose connections, take rows of other sessions. The receiver serves one local connection after the
other, so that what `deliver` has written to a connection it gave up is still read, before the
connection that follows; this is the `backlog`. Only the answers to it are lost.

`Setup` fixes one stream: its messages are valid, without FEC, and their numbers grow. Whatever else
passes through the relays is of other streams, or is no datagram at all.
-/

namespace PulseFanout
namespace Durable

open Framework Msg Multiplex Receiver

/-! ### The stream -/

/-- A receiver that acknowledges, and the stream it is sent. -/
structure Setup where
  cfg : Config
  dedupe : cfg.dedupeEnabled = true
  ack : cfg.ackPublish = true
  /-- `--echo` needs UDP. -/
  echo : cfg.echo = false
  key : Key
  stream_ne : key.stream ≠ 0
  epoch_ne : key.epoch ≠ 0
  messages : List Native
  valid : ∀ m ∈ messages, validateFrame m.header m.size = true ∧ keyOf m = key
  increasing : (messages.map seqOf).Pairwise (· < ·)
  clear : ∀ m ∈ messages, Clear cfg.dedupeWindow m

namespace Setup

variable (S : Setup)

/-- The datagram of a message. -/
def datagram (m : Native) : List Byte := wrap S.key (Wire.bytes m)

/-- The message a payload carries, if it is one of the stream. -/
def message (payload : List Byte) : Option Native :=
  S.messages.find? fun m => S.datagram m = payload

/-- A payload that is not a datagram of the stream. -/
def Stranger (payload : List Byte) : Prop :=
  (Input.datagram payload false 0).key? ≠ some S.key

instance (payload : List Byte) : Decidable (S.Stranger payload) :=
  inferInstanceAs (Decidable (_ ≠ _))

end Setup

/-! ### The sender -/

/-- Where `flush_batch_direct` is. -/
inductive ClientPc
  /-- About to send a frame. -/
  | ready
  /-- Waiting for its acknowledgement. -/
  | waiting (frame : List Byte)
  /-- It has returned false. -/
  | failed
deriving DecidableEq

/-- The sender, with the frames it has not sent yet and those it has counted. -/
structure Client where
  todo : List (List Byte)
  pc : ClientPc := .ready
  counted : List (List Byte) := []

/-! ### The system -/

/-- The four processes and what is between them. -/
structure Chain (cfg : Config) where
  client : Client
  /-- The connection from the sender to the sending relay. -/
  uplink : LocalConn := {}
  /-- The frame the relay has read and not yet stored. -/
  held : Option (List Byte) := none
  /-- The answer to a frame it has stored is due. -/
  due : Bool := false
  relays : World
  /-- What the receiver has not read of connections that `deliver` has given up. -/
  backlog : List (List Byte) := []
  receiver : State cfg := {}

/-- What can happen. -/
inductive Move
  | relay (a : Action)
  /-- The sender writes a frame. -/
  | send
  /-- It reads the answer. -/
  | readAck
  /-- It gives up: a deadline has passed, or the connection is broken. -/
  | giveUp
  /-- The relay reads a frame of the sender (`local_frame`). -/
  | take
  /-- It stores the frame; when the spool is full it will try again. -/
  | store
  /-- It answers. -/
  | answer
  /-- The connection of the sender breaks. -/
  | cutUplink (i j : ℕ)
  /-- The receiver reads a frame. -/
  | receive (now : ℕ)
  /-- It starts a round of its loop. -/
  | tick (now : ℕ)

/-- The frames `receive_frame` takes. -/
def receiverFrames : Framing (BitVec 16 × List Byte) := Transport.framed Transport.datagramCap

namespace Chain

variable {cfg : Config} (C : Chain cfg)

/-- What the relays do by themselves. Frames of the stream come from the sender only and answers
from the receiver; the main thread ends its input between two frames. -/
def allowed (S : Setup) : Action → Bool
  | .main (.enqueue payload) | .foreign _ _ payload => decide (S.Stranger payload)
  | .main .endInput => C.held.isNone && !C.due
  | .deliver (.answer _) => false
  | _ => true

/-- The relay closes the connection of the sender. -/
def hungUp : Chain cfg :=
  { C with held := none, due := false, uplink := { C.uplink with out := [], link := false } }

/-- `deliver` gives up its connection. -/
def abandoned : List (List Byte) :=
  match C.relays.recv.peer with
  | none => C.backlog
  | some c => C.backlog ++ [c.out]

/-- What becomes of the rest when the relays take a step. -/
def aside (relays : World) : Action → Chain cfg
  | .crashSend | .main .fail | .main .endInput => { C.hungUp with relays }
  | .crashReceive | .deliver .fail => { C with relays, backlog := C.abandoned }
  | _ => { C with relays }

/-- The receiver reads from the connection `deliver` has to it. A payload that gets no answer (its
header is refused, or its identity not admitted) is just gone. -/
def receiveCurrent (now : ℕ) : Option (Chain cfg) :=
  match C.relays.recv.peer with
  | none => none
  | some c =>
    match receiverFrames.get c.out with
    | .short => none
    -- a frame that does not fit its buffer: it closes the connection
    | .bad => (C.relays.step (.deliver (.cut 0 c.reply.length))).map fun relays => { C with relays }
    | .item (_, payload) rest =>
      let e := Input.datagram payload false now
      let receiver := C.receiver.step e
      match C.receiver.answers e with
      | [ok] =>
        (C.relays.step (.deliver (.answer (if ok then 1 else 0)))).map fun relays =>
          { C with relays, receiver }
      | _ =>
        some { C with
          receiver
          relays := { C.relays with
            recv := { C.relays.recv with peer := some { c with out := rest } } } }

/-- The receiver reads: first what is left of connections that were given up. -/
def receive (now : ℕ) : Option (Chain cfg) :=
  match C.backlog with
  | [] => C.receiveCurrent now
  | bytes :: backlog =>
    match receiverFrames.get bytes with
    | .item (_, payload) rest =>
      some { C with
        receiver := C.receiver.step (.datagram payload false now)
        backlog := rest :: backlog }
    -- the end of that connection
    | _ => some { C with backlog }

/-- One step of the system. -/
def step (S : Setup) (C : Chain cfg) : Move → Option (Chain cfg)
  | .relay a =>
    if C.allowed S a then (C.relays.step a).map fun relays => C.aside relays a else none
  | .send =>
    match C.client.pc, C.client.todo with
    | .ready, frame :: todo =>
      some { C with
        client := { C.client with todo, pc := .waiting frame }
        uplink := if C.uplink.link then
          { C.uplink with out := C.uplink.out ++ localFrames.put (Transport.item frame) }
          else C.uplink }
    | _, _ => none
  | .readAck =>
    match C.client.pc, C.uplink.reply with
    | .waiting frame, byte :: reply =>
      let uplink := { C.uplink with reply }
      if byte = 1 then
        some { C with
          uplink
          client := { C.client with pc := .ready, counted := C.client.counted ++ [frame] } }
      else some { C with uplink, client := { C.client with pc := .failed } }
    | _, _ => none
  | .giveUp =>
    some { C with
      client := { C.client with pc := .failed }
      uplink := { C.uplink with link := false } }
  | .take =>
    match C.held, C.due with
    | none, false =>
      if C.relays.send.main = .ingress then
        match localFrames.get C.uplink.out with
        | .item (_, payload) out =>
          some { C with held := some payload, uplink := { C.uplink with out } }
        | _ => none
      else none
    | _, _ => none
  | .store =>
    match C.held with
    | none => none
    | some payload =>
      (C.relays.step (.main (.enqueue payload))).map fun relays =>
        match (C.relays.send.outbox.enqueue .ample payload).1 with
        | .ok _ => { C with relays, held := none, due := true }
        | .error _ => { C with relays }
  | .answer =>
    if C.due then
      some { C with
        due := false
        uplink := if C.uplink.link then { C.uplink with reply := C.uplink.reply ++ [1] }
          else C.uplink }
    else none
  | .cutUplink i j => some { C with uplink := ⟨C.uplink.out.take i, C.uplink.reply.take j, false⟩ }
  | .receive now => C.receive now
  | .tick now => some { C with receiver := C.receiver.step (.tick now) }

end Chain

/-- The system on two new databases. -/
def chain (S : Setup) (outbox inbox : ℕ × String × Session) : Machine (Chain S.cfg) Move where
  start :=
    { client := { todo := S.messages.map S.datagram }
      relays := (relays outbox inbox).start }
  step := Chain.step S

end Durable
end PulseFanout
