import PulseFanout.Durable.Relay
import PulseFanout.Framework.Segments

/-!
# Frames over stream sockets (`stream_transport.h`, `tls_relay.py`, `durable_relay.py`)

In stream mode a frame is sent as two bytes of length and its contents, from the sender to a relay
over a local socket, from there to the other relay over TLS, and over a local socket to the
receiver. The sender and the receiver have their functions in C++ (`send_frame`, `receive_frame`),
the relays theirs in Python (`copy_frames`, or `local_frame` if they are durable), with limits of
their own on what they accept: 1100 bytes at a relay, the size of a datagram buffer at the receiver.

The sockets are those of `Framework.Segments`. A reader that collects bytes until it has a frame
finds what the `Framing` of the format finds in the bytes themselves, however they are cut into
segments (`receiveFrame_reads`); this is also what the relays of `Durable.Relay` take for granted.
-/

namespace PulseFanout
namespace Transport

open Framework Durable

/-! ### `stream_transport.h` -/

/-- `transfer`, receiving. Sending, it is `Outbound.write`. -/
def transfer (s : Inbound) (size : ℕ) : Option (List Byte × Inbound) :=
  match s.gather size with
  | (data, none, s) => some (data, s)
  | (_, some _, _) => none

/-- `send_frame`: what is written, the result, and what follows. -/
def sendFrame (out : Outbound) (data : List Byte) : List Byte × Bool × Outbound :=
  let len := data.length
  match out.write [BitVec.ofNat 8 (len >>> 8), BitVec.ofNat 8 len] with
  | (written, false, out) => (written, false, out)
  | (written, true, out) =>
    let (more, sent, out) := out.write data
    (written ++ more, sent, out)

/-- The frames of a batch; the first failure ends it. -/
def sendFrames : Outbound → List (List Byte) → List Byte × Bool × Outbound
  | out, [] => ([], true, out)
  | out, frame :: frames =>
    match sendFrame out frame with
    | (written, false, out) => (written, false, out)
    | (written, true, out) =>
      let (more, sent, out) := sendFrames out frames
      (written ++ more, sent, out)

/-- `receive_frame`; `none` is its `-1`. -/
def receiveFrame (s : Inbound) (cap : ℕ) : Option (List Byte × Inbound) :=
  match transfer s 2 with
  | none => none
  | some (size, s) =>
    let len := ofBytes size
    if len = 0 ∨ cap < len then none
    else transfer s len

/-- Calls of `receive_frame` until one fails, and whether one has. -/
def receiveFrames (cap : ℕ) : ℕ → Inbound → List (List Byte) × Bool
  | 0, _ => ([], false)
  | calls + 1, s =>
    match receiveFrame s cap with
    | none => ([], true)
    | some (frame, s) =>
      let (frames, failed) := receiveFrames cap calls s
      (frame :: frames, failed)

/-! ### The relays -/

inductive Exception
  | connection (text : String)
  | value (text : String)
  /-- Raised by the socket. -/
  | os
deriving DecidableEq

/-- How a loop of a relay ends, within the rounds it is given. -/
inductive Outcome
  | returned
  | raised (e : Exception)
  | running
deriving DecidableEq

/-- The two modules differ in what they say. -/
structure Texts where
  truncated : String
  invalid : String
  missing : String

def tlsTexts : Texts where
  truncated := "truncated TLS frame"
  invalid := "invalid stream frame length"
  missing := "missing stream frame body"

def durableTexts : Texts where
  truncated := "truncated durable frame"
  invalid := "invalid local frame"
  missing := "missing local frame body"

/-- `exact` -/
def exact (truncated : String) (stream : Inbound) (length : ℕ) :
    Except Exception (Option (List Byte × Inbound)) :=
  match stream.gather length with
  | (out, none, stream) => .ok (some (out, stream))
  | (out, some .closed, _) => if out = [] then .ok none else .error (.connection truncated)
  | (_, some .failed, _) => .error .os

/-- A frame, as `copy_frames` and `local_frame` take it: the two bytes and the contents. -/
def nextFrame (texts : Texts) (stream : Inbound) :
    Except Exception (Option (List Byte × List Byte × Inbound)) :=
  match exact texts.truncated stream 2 with
  | .error e => .error e
  | .ok none => .ok none
  | .ok (some (head, stream)) =>
    let size := ofBytes head
    if ¬ (1 ≤ size ∧ size ≤ maxFrame) then .error (.value texts.invalid)
    else
      match exact texts.truncated stream size with
      | .error e => .error e
      | .ok none => .error (.connection texts.missing)
      | .ok (some (body, stream)) => .ok (some (head, body, stream))

/-- `copy_frames`: what is written, and the outcome. -/
def copyFrames : ℕ → Inbound → Outbound → List Byte × Outcome
  | 0, _, _ => ([], .running)
  | rounds + 1, source, destination =>
    match nextFrame tlsTexts source with
    | .error e => ([], .raised e)
    | .ok none => ([], .returned)
    | .ok (some (head, body, source)) =>
      match destination.write (head ++ body) with
      | (written, false, _) => (written, .raised .os)
      | (written, true, destination) =>
        let (more, outcome) := copyFrames rounds source destination
        (written ++ more, outcome)

/-- Frames until the end of the stream: the payloads, and the outcome. -/
def frameLoop (texts : Texts) : ℕ → Inbound → List (List Byte) × Outcome
  | 0, _ => ([], .running)
  | rounds + 1, stream =>
    match nextFrame texts stream with
    | .error e => ([], .raised e)
    | .ok none => ([], .returned)
    | .ok (some (_, body, stream)) =>
      let (payloads, outcome) := frameLoop texts rounds stream
      (body :: payloads, outcome)

/-- `local_frame` until it returns `None`. -/
def localFrames : ℕ → Inbound → List (List Byte) × Outcome := frameLoop durableTexts

/-- The payloads as `deliver` writes them to one connection: `"!H"` and the payload. -/
def deliverAll : Outbound → List (List Byte) → List Byte × Bool × Outbound
  | out, [] => ([], true, out)
  | out, payload :: payloads =>
    match out.write (Scalar.u16.put (BitVec.ofNat 16 payload.length) ++ payload) with
    | (written, false, out) => (written, false, out)
    | (written, true, out) =>
      let (more, sent, out) := deliverAll out payloads
      (written ++ more, sent, out)

/-! ### The format -/

theorem size_pos : 0 < Scalar.u16.size := Nat.two_pos

/-- Frames of at most `cap` bytes. With 1100 they are the local frames of the durable relays. -/
def framed (cap : ℕ) : Framing (BitVec 16 × List Byte) :=
  Framing.sized Scalar.u16 size_pos fun size =>
    if 1 ≤ size.toNat ∧ size.toNat ≤ cap then some size.toNat else none

/-- A frame with its length. -/
def item (frame : List Byte) : BitVec 16 × List Byte := (BitVec.ofNat 16 frame.length, frame)

/-- Frames as they are written. -/
def wire (frames : List (List Byte)) : List Byte := (framed maxFrame).encode (frames.map item)

@[simp] theorem wire_nil : wire [] = [] := rfl

theorem wire_cons (frame : List Byte) (frames : List (List Byte)) :
    wire (frame :: frames) =
      Scalar.u16.put (BitVec.ofNat 16 frame.length) ++ frame ++ wire frames := rfl

theorem wire_mono {frames more : List (List Byte)} (h : frames <+: more) :
    wire frames <+: wire more :=
  (framed maxFrame).encode_mono (h.map item)

/-- The lengths a reader with room for `cap` bytes takes. -/
def Fits (cap : ℕ) (frame : List Byte) : Prop := 1 ≤ frame.length ∧ frame.length ≤ cap

theorem Fits.valid {cap : ℕ} {frame : List Byte} (h : Fits cap frame) (hcap : cap < 2 ^ 16) :
    (framed cap).Valid (item frame) := by
  have hlength : (BitVec.ofNat 16 frame.length).toNat = frame.length := by
    rw [BitVec.toNat_ofNat]
    exact Nat.mod_eq_of_lt (h.2.trans_lt hcap)
  show (if 1 ≤ (BitVec.ofNat 16 frame.length).toNat ∧
    (BitVec.ofNat 16 frame.length).toNat ≤ cap then some _ else none) = some frame.length
  rw [hlength, if_pos (show 1 ≤ frame.length ∧ frame.length ≤ cap from h)]
  exact congrArg some hlength

/-! ### Reading does not depend on the segments -/

/-- The length, as the readers compute it, of a string that begins with two bytes. -/
theorem get_u16 {bs : List Byte} (h : 2 ≤ bs.length) :
    Scalar.u16.get bs = some (BitVec.ofNat 16 (ofBytes (bs.take 2)), bs.drop 2) ∧
      (BitVec.ofNat 16 (ofBytes (bs.take 2))).toNat = ofBytes (bs.take 2) := by
  refine ⟨if_neg (by omega), ?_⟩
  have hlt := ofBytes_lt (bs.take 2)
  rw [List.length_take_of_le h] at hlt
  rw [BitVec.toNat_ofNat]
  exact Nat.mod_eq_of_lt hlt

/-- What `receive_frame` makes of a stream. -/
def Reads (cap : ℕ) (s : Inbound) : Option (List Byte × Inbound) → Prop
  | some (frame, rest) =>
    (framed cap).get s.bytes = .item (item frame) rest.bytes ∧ rest.ending = s.ending
  | none => ∀ a rest, (framed cap).get s.bytes ≠ .item a rest

theorem transfer_eq (s : Inbound) (size : ℕ) :
    (s.bytes.length < size ∧ transfer s size = none) ∨
      (size ≤ s.bytes.length ∧ ∃ rest, transfer s size = some (s.bytes.take size, rest) ∧
        rest.bytes = s.bytes.drop size ∧ rest.ending = s.ending) := by
  have hgathers := s.gathers size
  unfold transfer
  generalize s.gather size = result at hgathers ⊢
  obtain ⟨got, why, rest⟩ := result
  obtain ⟨rfl, hwhy, hbytes, hending⟩ := hgathers
  dsimp only at hwhy
  by_cases hsize : size ≤ s.bytes.length
  · rw [if_pos hsize] at hwhy
    subst hwhy
    exact .inr ⟨hsize, rest, rfl, hbytes, hending⟩
  · rw [if_neg hsize] at hwhy
    subst hwhy
    exact .inl ⟨Nat.lt_of_not_le hsize, rfl⟩

theorem transfer_some {s rest : Inbound} {size : ℕ} {got : List Byte}
    (h : transfer s size = some (got, rest)) : size ≤ s.bytes.length ∧ got = s.bytes.take size := by
  rcases transfer_eq s size with ⟨-, hnone⟩ | ⟨hall, rest', hsome, -⟩
  · rw [hnone] at h
    cases h
  · rw [hsome] at h
    cases h
    exact ⟨hall, rfl⟩

/-- **`receive_frame` finds what is in the bytes.** -/
theorem receiveFrame_reads (cap : ℕ) (s : Inbound) : Reads cap s (receiveFrame s cap) := by
  unfold receiveFrame
  -- the length, the check on it, the body: each may fail, and then no frame is in the bytes
  rcases transfer_eq s 2 with ⟨hshort, htransfer⟩ | ⟨hlong, rest, htransfer, hbytes, hending⟩
  · rw [htransfer]
    intro a rest hget
    rw [framed, Framing.sized_get_short _ _ _ hshort] at hget
    cases hget
  rw [htransfer]
  dsimp only
  obtain ⟨hget, hsize⟩ := get_u16 hlong
  generalize ofBytes (s.bytes.take 2) = len at hget hsize ⊢
  split
  · next hlen =>
    intro a rest' hitem
    rw [framed, Framing.sized_get_bad _ _ _ hget (by rw [hsize]; exact if_neg (by omega))] at hitem
    cases hitem
  next hlen =>
  -- the length is good; whether there is a frame depends on the bytes behind it
  have hframed := Framing.sized_get Scalar.u16 size_pos
    (fun size => if 1 ≤ size.toNat ∧ size.toNat ≤ cap then some size.toNat else none) hget
    (n := len) (by rw [hsize]; exact if_pos (by omega))
  rw [← hbytes] at hframed
  rcases transfer_eq rest len with ⟨hshort, htransfer⟩ | ⟨hall, rest', htransfer, hbytes', hending'⟩
  · rw [htransfer]
    rw [if_pos hshort] at hframed
    intro a rest' hitem
    rw [framed, hframed] at hitem
    cases hitem
  · rw [htransfer]
    rw [if_neg (Nat.not_lt.mpr hall)] at hframed
    refine ⟨hframed.trans ?_, hending'.trans hending⟩
    rw [hbytes', item, List.length_take_of_le hall]

/-! ### Writing does not depend on the room -/

theorem wire_singleton (frame : List Byte) :
    wire [frame] = Scalar.u16.put (BitVec.ofNat 16 frame.length) ++ frame := by
  rw [wire_cons, wire_nil, List.append_nil]

theorem wire_cons_eq (frame : List Byte) (frames : List (List Byte)) :
    wire (frame :: frames) = wire [frame] ++ wire frames := by
  rw [wire_singleton, wire_cons]

/-- The two bytes that `send_frame` computes. -/
theorem sizeBytes (len : ℕ) :
    [BitVec.ofNat 8 (len >>> 8), BitVec.ofNat 8 len] = Scalar.u16.put (BitVec.ofNat 16 len) := by
  show _ = [BitVec.ofNat 8 ((BitVec.ofNat 16 len).toNat >>> 8),
    BitVec.ofNat 8 ((BitVec.ofNat 16 len).toNat >>> 0)]
  congr 1
  · apply BitVec.eq_of_toNat_eq
    simp only [BitVec.toNat_ofNat, Nat.shiftRight_eq_div_pow]
    omega
  · congr 1
    apply BitVec.eq_of_toNat_eq
    simp only [BitVec.toNat_ofNat, Nat.shiftRight_zero]
    omega

theorem sendFrame_writes (out : Outbound) (frame : List Byte) :
    out.Writes (wire [frame]) (sendFrame out frame) := by
  rw [wire_singleton, ← sizeBytes]
  unfold sendFrame
  have hhead := out.writes [BitVec.ofNat 8 (frame.length >>> 8), BitVec.ofNat 8 frame.length]
  dsimp only
  split
  · next written rest hwrite =>
    rw [hwrite] at hhead
    exact hhead.stop frame
  · next written rest hwrite =>
    rw [hwrite] at hhead
    exact hhead.append (rest.writes frame)

theorem sendFrames_writes (out : Outbound) (frames : List (List Byte)) :
    out.Writes (wire frames) (sendFrames out frames) := by
  induction frames generalizing out with
  | nil => exact ⟨List.take_nil.symm, (decide_eq_true (Nat.zero_le _)).symm, rfl⟩
  | cons frame frames ih =>
    have hframe := sendFrame_writes out frame
    rw [wire_cons_eq]
    unfold sendFrames
    split
    · next written rest hwrite =>
      rw [hwrite] at hframe
      exact hframe.stop _
    · next written rest hwrite =>
      rw [hwrite] at hframe
      exact hframe.append (ih rest)

theorem deliverAll_writes (out : Outbound) (payloads : List (List Byte)) :
    out.Writes (wire payloads) (deliverAll out payloads) := by
  induction payloads generalizing out with
  | nil => exact ⟨List.take_nil.symm, (decide_eq_true (Nat.zero_le _)).symm, rfl⟩
  | cons payload payloads ih =>
    have hframe := out.writes (wire [payload])
    rw [wire_cons_eq]
    unfold deliverAll
    rw [← wire_singleton]
    split
    · next written rest hwrite =>
      rw [hwrite] at hframe
      exact hframe.stop _
    · next written rest hwrite =>
      rw [hwrite] at hframe
      exact hframe.append (ih rest)

/-! ### The relays read as the receiver does -/

/-- `exact` and `transfer` get the same bytes; `exact` also tells a clean end. -/
theorem exact_cases (text : String) (s : Inbound) (length : ℕ) :
    (∃ got rest, exact text s length = .ok (some (got, rest)) ∧
        transfer s length = some (got, rest)) ∨
      transfer s length = none ∧ s.bytes.length < length ∧
        if s.bytes = [] ∧ s.ending = .closed then exact text s length = .ok none
        else ∃ e, exact text s length = .error e := by
  have hgathers := s.gathers length
  unfold exact transfer
  generalize s.gather length = result at hgathers ⊢
  obtain ⟨got, why, rest⟩ := result
  obtain ⟨hgot, hwhy, -, -⟩ := hgathers
  dsimp only at hgot hwhy
  by_cases hlength : length ≤ s.bytes.length
  · rw [if_pos hlength] at hwhy
    subst hwhy
    exact .inl ⟨got, rest, rfl, rfl⟩
  · rw [if_neg hlength] at hwhy
    have hlt := Nat.lt_of_not_le hlength
    rw [List.take_of_length_le hlt.le] at hgot
    subst hwhy
    subst hgot
    refine .inr ⟨rfl, hlt, ?_⟩
    -- a clean end is one with no byte before it
    cases s.ending with
    | closed =>
      by_cases hempty : s.bytes = []
      · rw [if_pos ⟨hempty, rfl⟩]
        exact if_pos hempty
      · rw [if_neg fun h => hempty h.1]
        exact ⟨_, if_neg hempty⟩
    | failed =>
      rw [if_neg fun h => by cases h.2]
      exact ⟨_, rfl⟩

/-- The two bytes a body follows are those it is written with. -/
theorem header_wire {bytes head body : List Byte} (hlong : 2 ≤ bytes.length)
    (hhead : head = bytes.take 2) (hlength : body.length = ofBytes head) :
    head ++ body = wire [body] := by
  have hput := Scalar.u16.put_get (get_u16 hlong).1
  rw [← hhead, ← hlength] at hput
  have hsplit : head ++ bytes.drop 2 =
      Scalar.u16.put (BitVec.ofNat 16 body.length) ++ bytes.drop 2 := by
    rw [← hput, hhead, List.take_append_drop]
  rw [wire_singleton, List.append_cancel_right hsplit]

/-- The three results of `nextFrame`. -/
theorem nextFrame_cases (texts : Texts) (s : Inbound) :
    (∃ head body rest, nextFrame texts s = .ok (some (head, body, rest)) ∧
        receiveFrame s maxFrame = some (body, rest) ∧ head ++ body = wire [body]) ∨
      receiveFrame s maxFrame = none ∧
        if s.bytes = [] ∧ s.ending = .closed then nextFrame texts s = .ok none
        else ∃ e, nextFrame texts s = .error e := by
  unfold nextFrame receiveFrame
  rcases exact_cases texts.truncated s 2 with
    ⟨head, rest, hexact, htransfer⟩ | ⟨htransfer, -, hexact⟩
  swap
  · rw [htransfer]
    refine .inr ⟨rfl, ?_⟩
    split at hexact
    · next hend =>
      rw [if_pos hend, hexact]
    · next hend =>
      obtain ⟨e, hexact⟩ := hexact
      rw [if_neg hend, hexact]
      exact ⟨e, rfl⟩
  obtain ⟨hlong, hhead⟩ := transfer_some htransfer
  -- a header has arrived, so this is not a clean end any more
  have hsome : ¬ (s.bytes = [] ∧ s.ending = .closed) := by
    rintro ⟨hnil, -⟩
    rw [hnil] at hlong
    cases hlong
  rw [hexact, htransfer, if_neg hsome]
  dsimp only
  -- both check the length, the relay by raising and `receive_frame` by failing
  by_cases hlen : 1 ≤ ofBytes head ∧ ofBytes head ≤ maxFrame
  swap
  · rw [if_pos hlen, if_pos (show ofBytes head = 0 ∨ maxFrame < ofBytes head by omega)]
    exact .inr ⟨rfl, _, rfl⟩
  rw [if_neg (not_not_intro hlen), if_neg (show ¬ (ofBytes head = 0 ∨ maxFrame < ofBytes head) by
    omega)]
  rcases exact_cases texts.truncated rest (ofBytes head) with
    ⟨body, rest', hbody, htransfer'⟩ | ⟨htransfer', -, hbody⟩
  · rw [hbody, htransfer']
    refine .inl ⟨head, body, rest', rfl, rfl, ?_⟩
    have hlength : body.length = ofBytes head := by
      obtain ⟨hall, hbody⟩ := transfer_some htransfer'
      rw [hbody, List.length_take_of_le hall]
    exact header_wire hlong hhead hlength
  · rw [htransfer']
    refine .inr ⟨rfl, ?_⟩
    split at hbody
    · rw [hbody]
      exact ⟨_, rfl⟩
    · obtain ⟨e, hbody⟩ := hbody
      rw [hbody]
      exact ⟨e, rfl⟩

end Transport
end PulseFanout
