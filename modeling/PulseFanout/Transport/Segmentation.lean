import PulseFanout.Receiver.Multiplex
import PulseFanout.Transport.Stream

/-!
# Frames from one end to the other

What arrives at a reader is a piece of what was written before it: everything, or all up to some
byte. `Obtains` says which frames are in such a piece, and the loops of the receiver and of the
relays find these. A relay writes a piece of what it was sent, too, so that the same holds after any
number of them (`frames_survive_segmentation`).
-/

namespace PulseFanout
namespace Transport

open Framework Durable

/-! ### From a piece of what was written -/

/-- Of the frames written, `got` are those that have arrived whole in `bytes`. -/
structure Obtains (frames : List (List Byte)) (bytes : List Byte) (got : List (List Byte)) :
    Prop where
  sent : got <+: frames
  arrived : wire got <+: bytes
  whole : ∀ more, more <+: frames → wire more <+: bytes → more <+: got

namespace Obtains

variable {frames got : List (List Byte)} {frame bytes rest : List Byte}

theorem nil : Obtains [] bytes [] where
  sent := List.nil_prefix
  arrived := List.nil_prefix
  whole := fun _ hmore _ => hmore

theorem stop (h : ¬ wire [frame] <+: bytes) : Obtains (frame :: frames) bytes [] where
  sent := List.nil_prefix
  arrived := List.nil_prefix
  whole := by
    intro more hmore harrived
    cases more with
    | nil => exact List.nil_prefix
    | cons first more =>
      -- with one frame arrived, the first of them has
      obtain ⟨rfl, -⟩ := List.cons_prefix_cons.mp hmore
      refine absurd ((wire_mono ?_).trans harrived) h
      exact List.cons_prefix_cons.mpr ⟨rfl, List.nil_prefix⟩

theorem cons (h : Obtains frames rest got) :
    Obtains (frame :: frames) (wire [frame] ++ rest) (frame :: got) where
  sent := List.cons_prefix_cons.mpr ⟨rfl, h.sent⟩
  arrived := by
    rw [wire_cons_eq]
    exact (List.prefix_append_right_inj _).mpr h.arrived
  whole := by
    intro more hmore harrived
    cases more with
    | nil => exact List.nil_prefix
    | cons first more =>
      obtain ⟨rfl, htail⟩ := List.cons_prefix_cons.mp hmore
      rw [wire_cons_eq, List.prefix_append_right_inj] at harrived
      exact List.cons_prefix_cons.mpr ⟨rfl, h.whole more htail harrived⟩

/-- Everything arrives if all the bytes do. -/
theorem all (h : Obtains frames (wire frames) got) : got = frames :=
  h.sent.eq_of_length_le (h.whole frames List.prefix_rfl List.prefix_rfl).length_le

end Obtains

section Reading

variable {cap : ℕ} {frame : List Byte} {frames : List (List Byte)} {s : Inbound}

/-- **One call**, on a piece of what was written. -/
theorem receiveFrame_of_piece (hcap : cap < 2 ^ 16) (hfits : Fits cap frame)
    (hpre : s.bytes <+: wire (frame :: frames)) :
    (∃ rest, receiveFrame s cap = some (frame, rest) ∧ s.bytes = wire [frame] ++ rest.bytes ∧
        rest.bytes <+: wire frames ∧ rest.ending = s.ending) ∨
      receiveFrame s cap = none ∧ ¬ wire [frame] <+: s.bytes := by
  have hreads := receiveFrame_reads cap s
  generalize receiveFrame s cap = result at hreads ⊢
  -- the piece has the first frame whole, or it ends within it
  rcases (framed cap).get_encode (hfits.valid hcap) hpre with
    ⟨bytes, heq, hget, hrest⟩ | ⟨hnot, hget⟩
  · cases result with
    | none => exact absurd hget (hreads _ _)
    | some r =>
      obtain ⟨got, rest⟩ := r
      obtain ⟨hitem, hending⟩ := hreads
      rw [hget] at hitem
      injection hitem with hsame hbytes
      obtain rfl : frame = got := congrArg Prod.snd hsame
      rw [hbytes] at heq hrest
      refine .inl ⟨rest, rfl, ?_, hrest, hending⟩
      rw [heq, wire_singleton]
      rfl
  · cases result with
    | none =>
      rw [wire_singleton]
      exact .inr ⟨rfl, hnot⟩
    | some r =>
      obtain ⟨hitem, -⟩ := hreads
      rw [hget] at hitem
      cases hitem

theorem receiveFrame_nil (h : s.bytes = []) : receiveFrame s cap = none := by
  have hreads := receiveFrame_reads cap s
  generalize receiveFrame s cap = result at hreads ⊢
  cases result with
  | none => rfl
  | some r =>
    obtain ⟨hitem, -⟩ := hreads
    rw [h, (framed cap).get_nil] at hitem
    cases hitem

/-- A frame takes more bytes than rounds. -/
theorem rounds_left {rest : Inbound} {rounds : ℕ} (hbytes : s.bytes = wire [frame] ++ rest.bytes)
    (hrounds : s.bytes.length < rounds + 1) :
    ∃ n, rounds = n + 1 ∧ rest.bytes.length < n + 1 := by
  have hlength : (wire [frame]).length = 2 + frame.length := by
    rw [wire_singleton, List.length_append, Scalar.u16.put_length]
    rfl
  rw [hbytes, List.length_append] at hrounds
  exact ⟨rounds - 1, by omega, by omega⟩

/-- **The receiver.** It obtains what has arrived whole, and then a call fails. -/
theorem receiveFrames_of_piece (hcap : cap < 2 ^ 16) (hfits : ∀ frame ∈ frames, Fits cap frame)
    (hpre : s.bytes <+: wire frames) {calls : ℕ} (hcalls : s.bytes.length < calls) :
    Obtains frames s.bytes (receiveFrames cap calls s).1 ∧
      (receiveFrames cap calls s).2 = true := by
  obtain ⟨calls, rfl⟩ : ∃ n, calls = n + 1 := ⟨calls - 1, by omega⟩
  induction frames generalizing s calls with
  | nil =>
    unfold receiveFrames
    rw [receiveFrame_nil (List.prefix_nil.mp hpre)]
    exact ⟨.nil, rfl⟩
  | cons frame frames ih =>
    unfold receiveFrames
    rcases receiveFrame_of_piece hcap (hfits frame List.mem_cons_self) hpre with
      ⟨rest, hreceive, hbytes, hrest, -⟩ | ⟨hreceive, hnot⟩
    · obtain ⟨calls, rfl, hless⟩ := rounds_left hbytes hcalls
      obtain ⟨hobtains, hfailed⟩ :=
        ih (fun f hf => hfits f (List.mem_cons_of_mem _ hf)) hrest calls hless
      rw [hreceive, hbytes]
      exact ⟨hobtains.cons, hfailed⟩
    · rw [hreceive]
      exact ⟨.stop hnot, rfl⟩

/-- The loop of a relay goes on with a frame. -/
theorem frameLoop_some (texts : Texts) {rest : Inbound}
    (h : receiveFrame s maxFrame = some (frame, rest)) (rounds : ℕ) :
    frameLoop texts (rounds + 1) s =
      (frame :: (frameLoop texts rounds rest).1, (frameLoop texts rounds rest).2) := by
  rcases nextFrame_cases texts s with ⟨head, body, rest', hnext, hreceive, -⟩ | ⟨hnone, -⟩
  · rw [h] at hreceive
    cases hreceive
    rw [frameLoop, hnext]
  · rw [h] at hnone
    cases hnone

/-- The loop of a relay ends without one, and returns only at a clean end. -/
theorem frameLoop_none (texts : Texts) (h : receiveFrame s maxFrame = none) (rounds : ℕ) :
    ∃ outcome, frameLoop texts (rounds + 1) s = ([], outcome) ∧ outcome ≠ .running ∧
      (outcome = .returned ↔ s.bytes = [] ∧ s.ending = .closed) := by
  rcases nextFrame_cases texts s with ⟨head, body, rest', -, hreceive, -⟩ | ⟨-, hnext⟩
  · rw [h] at hreceive
    cases hreceive
  unfold frameLoop
  split at hnext
  · next hend =>
    rw [hnext]
    exact ⟨.returned, rfl, Outcome.noConfusion, fun _ => hend, fun _ => rfl⟩
  · next hend =>
    obtain ⟨e, hnext⟩ := hnext
    rw [hnext]
    exact ⟨.raised e, rfl, Outcome.noConfusion, Outcome.noConfusion, fun h => absurd h hend⟩

/-- **A relay.** It takes what has arrived whole, and returns only at a clean end. -/
theorem frameLoop_of_piece (texts : Texts) (hfits : ∀ frame ∈ frames, Fits maxFrame frame)
    (hpre : s.bytes <+: wire frames) {rounds : ℕ} (hrounds : s.bytes.length < rounds) :
    Obtains frames s.bytes (frameLoop texts rounds s).1 ∧
      (frameLoop texts rounds s).2 ≠ .running ∧
      ((frameLoop texts rounds s).2 = .returned ↔
        s.bytes = wire (frameLoop texts rounds s).1 ∧ s.ending = .closed) := by
  obtain ⟨rounds, rfl⟩ : ∃ n, rounds = n + 1 := ⟨rounds - 1, by omega⟩
  -- the frame taken is the first one written, and the rest of the bytes is a piece of the rest
  induction frames generalizing s rounds with
  | nil =>
    obtain ⟨outcome, hloop, hended⟩ := frameLoop_none texts
      (receiveFrame_nil (List.prefix_nil.mp hpre)) rounds
    rw [hloop]
    exact ⟨.nil, hended⟩
  | cons frame frames ih =>
    rcases receiveFrame_of_piece (by decide) (hfits frame List.mem_cons_self) hpre with
      ⟨rest, hreceive, hbytes, hrest, hending⟩ | ⟨hreceive, hnot⟩
    · obtain ⟨rounds, rfl, hless⟩ := rounds_left hbytes hrounds
      obtain ⟨hobtains, hrunning, hreturned⟩ :=
        ih (fun f hf => hfits f (List.mem_cons_of_mem _ hf)) hrest rounds hless
      rw [frameLoop_some texts hreceive, hbytes, ← hending]
      refine ⟨hobtains.cons, hrunning, hreturned.trans (and_congr_left fun _ => ?_)⟩
      dsimp only
      rw [wire_cons_eq frame (frameLoop texts (rounds + 1) rest).1]
      exact (List.append_right_inj _).symm
    · obtain ⟨outcome, hloop, hended⟩ := frameLoop_none texts hreceive rounds
      rw [hloop]
      exact ⟨.stop hnot, hended⟩

theorem nothing_written (room : ℕ) (outcome : Outcome) :
    ([], outcome) = ((wire []).take room,
      if (wire []).length ≤ room then outcome else .raised .os) := by
  rw [wire_nil, List.take_nil, List.length_nil, if_pos (Nat.zero_le room)]

/-- **`copy_frames` writes what it reads**, as far as there is room. -/
theorem copyFrames_eq (rounds : ℕ) (s : Inbound) (out : Outbound) :
    let read := frameLoop tlsTexts rounds s
    copyFrames rounds s out = ((wire read.1).take out.room,
      if (wire read.1).length ≤ out.room then read.2 else .raised .os) := by
  induction rounds generalizing s out with
  | zero => exact nothing_written out.room .running
  | succ rounds ih =>
    unfold copyFrames frameLoop
    rcases nextFrame_cases tlsTexts s with ⟨head, body, rest, hnext, -, hwire⟩ | ⟨-, hnext⟩
    · -- a frame is written as it was read
      rw [hnext]
      dsimp only
      rw [hwire]
      have hwrites := out.writes (wire [body])
      generalize out.write (wire [body]) = result at hwrites ⊢
      obtain ⟨written, all, out'⟩ := result
      rw [wire_cons_eq body, List.length_append]
      cases all with
      | false =>
        have hstop := hwrites.stop (wire (frameLoop tlsTexts rounds rest).1)
        refine Prod.ext hstop.written ?_
        have hall := of_decide_eq_false hstop.all.symm
        rw [List.length_append] at hall
        exact (if_neg hall).symm
      | true =>
        have hall : (wire [body]).length ≤ out.room := of_decide_eq_true hwrites.all.symm
        have hroom : out'.room = out.room - (wire [body]).length := hwrites.room
        have hwritten : written = wire [body] := hwrites.written.trans (List.take_of_length_le hall)
        dsimp only
        rw [ih rest out', hroom, hwritten, List.take_append, List.take_of_length_le hall]
        exact Prod.ext rfl (if_congr (by omega) rfl rfl)
    · split at hnext
      · rw [hnext]
        exact nothing_written out.room .returned
      · obtain ⟨e, hnext⟩ := hnext
        rw [hnext]
        exact nothing_written out.room (.raised e)

end Reading

/-! ### A chain of relays -/

/-- The ways a relay passes frames on. -/
inductive Hop
  /-- `copy_frames` -/
  | copy
  /-- `local_frame`, and what it takes is written by `deliver` in turn. -/
  | spool
deriving DecidableEq

def Hop.texts : Hop → Texts
  | .copy => tlsTexts
  | .spool => durableTexts

/-- A relay with its two sockets. -/
structure Relay where
  hop : Hop
  source : Inbound
  destination : Outbound

/-- More rounds than there are bytes, so that the loop is seen to end. -/
def Relay.rounds (r : Relay) : ℕ := r.source.bytes.length + 1

/-- What a relay writes and how it ends. -/
def Relay.run (r : Relay) : List Byte × Outcome :=
  match r.hop with
  | .copy => copyFrames r.rounds r.source r.destination
  | .spool =>
    let (payloads, outcome) := localFrames r.rounds r.source
    match deliverAll r.destination payloads with
    | (written, true, _) => (written, outcome)
    | (written, false, _) => (written, .raised .os)

theorem Relay.run_eq (r : Relay) :
    let read := frameLoop r.hop.texts r.rounds r.source
    r.run = ((wire read.1).take r.destination.room,
      if (wire read.1).length ≤ r.destination.room then read.2 else .raised .os) := by
  unfold Relay.run
  cases hhop : r.hop with
  | copy => exact copyFrames_eq r.rounds r.source r.destination
  | spool =>
    show (match deliverAll r.destination (frameLoop durableTexts r.rounds r.source).1 with
      | (written, true, _) => (written, (frameLoop durableTexts r.rounds r.source).2)
      | (written, false, _) => (written, .raised .os)) = _
    have hwrites := deliverAll_writes r.destination (frameLoop durableTexts r.rounds r.source).1
    generalize deliverAll r.destination _ = result at hwrites ⊢
    obtain ⟨written, all, rest⟩ := result
    cases all with
    | false => exact Prod.ext hwrites.written (if_neg (of_decide_eq_false hwrites.all.symm)).symm
    | true => exact Prod.ext hwrites.written (if_pos (of_decide_eq_true hwrites.all.symm)).symm

/-- **What a relay does with a piece of what was written.** -/
theorem Relay.run_of_piece (r : Relay) {frames : List (List Byte)}
    (hfits : ∀ frame ∈ frames, Fits maxFrame frame) (hpre : r.source.bytes <+: wire frames) :
    ∃ got, Obtains frames r.source.bytes got ∧ r.run.1 <+: wire got ∧ r.run.2 ≠ .running ∧
      (r.run.2 = .returned ↔
        r.source.bytes = wire got ∧ r.source.ending = .closed ∧ r.run.1 = wire got) ∧
      (r.run.1 = wire got ↔ (wire got).length ≤ r.destination.room) := by
  have hrounds : r.source.bytes.length < r.rounds := Nat.lt_succ_self _
  obtain ⟨hobtains, hrunning, hreturned⟩ := frameLoop_of_piece r.hop.texts hfits hpre hrounds
  have hrun := r.run_eq
  generalize frameLoop r.hop.texts r.rounds r.source = read at hobtains hrunning hreturned hrun
  obtain ⟨got, outcome⟩ := read
  dsimp only at hobtains hrunning hreturned hrun
  -- what it has taken is written as far as there is room
  have hall : (wire got).take r.destination.room = wire got ↔
      (wire got).length ≤ r.destination.room := List.take_eq_self_iff _
  refine ⟨got, hobtains, ?_, ?_, ?_, ?_⟩
  · rw [hrun]
    exact List.take_prefix _ _
  · rw [hrun]
    dsimp only
    split
    · exact hrunning
    · exact Outcome.noConfusion
  · rw [hrun]
    dsimp only
    rw [hall]
    split
    · next hroom =>
      rw [hreturned]
      exact ⟨fun h => ⟨h.1, h.2, hroom⟩, fun h => ⟨h.1, h.2.1⟩⟩
    · next hroom => exact ⟨Outcome.noConfusion, fun h => absurd h.2.2 hroom⟩
  · rw [hrun]
    exact hall

/-- Each reader along the way gets what was written before it, cut at any byte. -/
def Linked : List Byte → List Relay → Inbound → Prop
  | written, [], final => final.bytes <+: written
  | written, r :: relays, final => r.source.bytes <+: written ∧ Linked r.run.1 relays final

/-- Each gets all of it, followed by the end of the stream, and has room for what it writes. -/
def Whole : List Byte → List Relay → Inbound → Prop
  | written, [], final => final.bytes = written
  | written, r :: relays, final =>
    r.source.bytes = written ∧ r.source.ending = .closed ∧
      written.length ≤ r.destination.room ∧ Whole r.run.1 relays final

instance Linked.decidable : (written : List Byte) → (relays : List Relay) → (final : Inbound) →
    Decidable (Linked written relays final)
  | written, [], final => inferInstanceAs (Decidable (final.bytes <+: written))
  | written, r :: relays, final =>
    have := Linked.decidable r.run.1 relays final
    inferInstanceAs (Decidable (r.source.bytes <+: written ∧ Linked r.run.1 relays final))

instance Whole.decidable : (written : List Byte) → (relays : List Relay) → (final : Inbound) →
    Decidable (Whole written relays final)
  | written, [], final => inferInstanceAs (Decidable (final.bytes = written))
  | written, r :: relays, final =>
    have := Whole.decidable r.run.1 relays final
    inferInstanceAs (Decidable (r.source.bytes = written ∧ r.source.ending = .closed ∧
      written.length ≤ r.destination.room ∧ Whole r.run.1 relays final))

section Chain

variable {frames : List (List Byte)} {relays : List Relay} {final : Inbound}

/-- **Along the chain** there are only pieces of what was written. -/
theorem Linked.pieces (hfits : ∀ frame ∈ frames, Fits maxFrame frame) {written : List Byte}
    (hwritten : written <+: wire frames) (h : Linked written relays final) :
    final.bytes <+: wire frames ∧ ∀ r ∈ relays, r.source.bytes <+: wire frames := by
  induction relays generalizing written with
  | nil => exact ⟨h.trans hwritten, fun _ hr => absurd hr List.not_mem_nil⟩
  | cons r relays ih =>
    obtain ⟨hsource, hlinked⟩ := h
    have hpre := hsource.trans hwritten
    obtain ⟨got, hobtains, hrun, -⟩ := r.run_of_piece hfits hpre
    obtain ⟨hfinal, hrelays⟩ := ih (hrun.trans (wire_mono hobtains.sent)) hlinked
    exact ⟨hfinal, List.forall_mem_cons.mpr ⟨hpre, hrelays⟩⟩

theorem Whole.complete (hfits : ∀ frame ∈ frames, Fits maxFrame frame)
    (h : Whole (wire frames) relays final) :
    final.bytes = wire frames ∧ ∀ r ∈ relays, r.run.2 = .returned := by
  induction relays with
  | nil => exact ⟨h, fun _ hr => absurd hr List.not_mem_nil⟩
  | cons r relays ih =>
    obtain ⟨hsource, hending, hroom, hwhole⟩ := h
    obtain ⟨got, hobtains, -, -, hreturned, hwritten⟩ :=
      r.run_of_piece hfits (hsource ▸ List.prefix_rfl)
    rw [hsource] at hobtains hreturned
    obtain rfl := hobtains.all
    have hrun := hwritten.mpr hroom
    rw [hrun] at hwhole
    obtain ⟨hfinal, hrelays⟩ := ih hwhole
    exact ⟨hfinal, List.forall_mem_cons.mpr ⟨hreturned.mpr ⟨rfl, hending, hrun⟩, hrelays⟩⟩

end Chain

/-- `datagram_cap`, the size of the receiver's buffer. -/
def datagramCap : ℕ := Wire.maxFrame + Fec.kEnvelopeSize + 2 + Multiplex.headerSize

/-- **Frames survive any segmentation.** Frames of 1 to 1063 bytes are written with `send_frame`,
passed on by any number of relays and read with `receive_frame`, over sockets that cut the stream
into segments, take what they have room for, and end or time out at any byte. The receiver obtains
first frames of those sent: those that have arrived whole; then its call fails. `send_frame` says
whether all was written. A relay returns at a clean end between two frames, with everything passed
on, and raises otherwise. With nothing lost on the way the receiver obtains all frames. -/
theorem frames_survive_segmentation (frames : List (List Byte))
    (hfits : ∀ frame ∈ frames, 1 ≤ frame.length ∧ frame.length ≤ datagramCap)
    (out : Outbound) (relays : List Relay) (final : Inbound) (calls : ℕ)
    (hcalls : final.bytes.length < calls)
    (hlinked : Linked (sendFrames out frames).1 relays final) :
    let received := receiveFrames datagramCap calls final
    (Obtains frames final.bytes received.1 ∧ received.2 = true) ∧
      ((sendFrames out frames).1 <+: wire frames ∧
        ((sendFrames out frames).2.1 = true ↔ (sendFrames out frames).1 = wire frames)) ∧
      (∀ r ∈ relays, ∃ got, Obtains frames r.source.bytes got ∧ r.run.1 <+: wire got ∧
        r.run.2 ≠ .running ∧ (r.run.2 = .returned ↔
          r.source.bytes = wire got ∧ r.source.ending = .closed ∧ r.run.1 = wire got)) ∧
      ((wire frames).length ≤ out.room → Whole (sendFrames out frames).1 relays final →
        received.1 = frames ∧ (sendFrames out frames).2.1 = true ∧
          ∀ r ∈ relays, r.run.2 = .returned) := by
  intro received
  have hrelay : ∀ frame ∈ frames, Fits maxFrame frame := fun frame hframe =>
    ⟨(hfits frame hframe).1, (hfits frame hframe).2.trans (by decide)⟩
  have hwrites := sendFrames_writes out frames
  have hpre : (sendFrames out frames).1 <+: wire frames := by
    rw [hwrites.written]
    exact List.take_prefix _ _
  have hsent : (sendFrames out frames).2.1 = true ↔ (sendFrames out frames).1 = wire frames := by
    rw [hwrites.all, decide_eq_true_iff, hwrites.written]
    exact (List.take_eq_self_iff _).symm
  -- along the chain every reader has a piece of what the sender has framed
  obtain ⟨hfinal, hsources⟩ := hlinked.pieces hrelay hpre
  have hreceived : Obtains frames final.bytes received.1 ∧ received.2 = true :=
    receiveFrames_of_piece (by decide) hfits hfinal hcalls
  refine ⟨hreceived, ⟨hpre, hsent⟩, ?_, ?_⟩
  · intro r hr
    obtain ⟨got, hobtains, hrun, hrunning, hreturned, -⟩ := r.run_of_piece hrelay (hsources r hr)
    exact ⟨got, hobtains, hrun, hrunning, hreturned⟩
  -- nothing is lost: each hop has the whole, so the last one too
  · intro hroom hwhole
    have hall : (sendFrames out frames).1 = wire frames := by
      rw [hwrites.written, List.take_of_length_le hroom]
    rw [hall] at hwhole
    obtain ⟨hbytes, hreturned⟩ := hwhole.complete hrelay
    have hobtains := hreceived.1
    rw [hbytes] at hobtains
    exact ⟨hobtains.all, hsent.mpr hall, hreturned⟩

/-- Two frames through a relay of each kind, cut up at will. In the second case the last stream
times out within the length of the second frame. -/
theorem two_frames_through_two_relays :
    let frames : List (List Byte) := [[1, 2, 3], [9]]
    let all : Inbound := [.segment 0 [3], .segment 1 [2, 3, 0, 1], .segment 9 []]
    let cut : Inbound := [.segment 0 [3, 1], .segment 2 [3, 0], .failed]
    (receiveFrames datagramCap 9 all).1 = frames ∧
      Obtains frames cut.bytes [[1, 2, 3]] ∧ (receiveFrames datagramCap 9 cut).2 = true := by
  intro frames all cut
  let out : Outbound := [.room 0, .idle, .room 2, .room 20]
  let relays : List Relay :=
    [⟨.copy, [.segment 0 [], .segment 3 [1, 2], .idle, .segment 3 [0], .segment 1 [9], .closed],
      [.room 5, .room 9]⟩,
      ⟨.spool, [.segment 0 [3, 1, 2, 3, 0, 1, 9], .closed], [.room 0, .room 20]⟩]
  have hfits : ∀ frame ∈ frames, 1 ≤ frame.length ∧ frame.length ≤ datagramCap := by decide
  have hall := frames_survive_segmentation frames hfits out relays all 9 (by decide) (by decide)
  have hcut := frames_survive_segmentation frames hfits out relays cut 9 (by decide) (by decide)
  exact ⟨(hall.2.2.2 (by decide) (by decide)).1, hcut.1⟩

end Transport
end PulseFanout
