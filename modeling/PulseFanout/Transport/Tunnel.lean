import Mathlib.Data.List.TakeWhile
import PulseFanout.Transport.Segmentation

/-!
# Datagrams over TLS (`tls_relay.py` with `--udp-port`)

With a UDP port the relays carry datagrams: one reads them from a local socket and writes each as a
frame to the TLS connection, the other reads the frames and sends each as a datagram (`run`,
`receive_frames`). The connection is a stream, so it is the frames that keep the datagrams apart.

Neither side survives a failure: a datagram that is empty or too long, a socket that times out, a
connection that breaks and a local send that fails all end the relay, and what was read but not
written is lost. What does come out are whole datagrams as they went in, in order and each once, up
to the first of those events (`tunnel_transparent`).
-/

namespace PulseFanout
namespace Transport

open Framework Durable

/-- The loop of `run` for a sending relay with a UDP port, over the datagrams that arrive until the
socket fails: what is written, and the exception that ends it. -/
def sendDatagrams : Outbound → List (List Byte) → List Byte × Exception
  | _, [] => ([], .os)
  | stream, datagram :: datagrams =>
    -- `udp.recv` cuts what is longer
    let frame := datagram.take (maxFrame + 1)
    if ¬ (1 ≤ frame.length ∧ frame.length ≤ maxFrame) then
      ([], .value "invalid local datagram length")
    else
      match stream.write (Scalar.u16.put (BitVec.ofNat 16 frame.length) ++ frame) with
      | (written, false, _) => (written, .os)
      | (written, true, stream) =>
        let (more, e) := sendDatagrams stream datagrams
        (written ++ more, e)

/-- What `receive_frames` says. -/
def udpTexts : Texts where
  truncated := "truncated TLS frame"
  invalid := "invalid TLS frame length"
  missing := "missing TLS frame body"

/-- `receive_frames`: the datagrams that are sent, and the outcome; `sends n` tells whether call `n`
of `sendto` takes all of its datagram. -/
def receiveDatagrams (sends : ℕ → Bool) : ℕ → Inbound → List (List Byte) × Outcome
  | 0, _ => ([], .running)
  | rounds + 1, stream =>
    match nextFrame udpTexts stream with
    | .error e => ([], .raised e)
    | .ok none => ([], .returned)
    | .ok (some (_, frame, stream)) =>
      if sends 0 then
        let (sent, outcome) := receiveDatagrams (fun n => sends (n + 1)) rounds stream
        (frame :: sent, outcome)
      else ([], .raised .os)

/-- The datagrams before the first one that is refused. -/
def accepted (datagrams : List (List Byte)) : List (List Byte) :=
  datagrams.takeWhile fun datagram => 1 ≤ datagram.length ∧ datagram.length ≤ maxFrame

theorem accepted_fits {datagrams : List (List Byte)} {datagram : List Byte}
    (h : datagram ∈ accepted datagrams) : Fits maxFrame datagram := by
  have hfits := List.mem_takeWhile_imp h
  rw [decide_eq_true_eq] at hfits
  exact hfits

/-- **What a sending relay writes.** -/
theorem sendDatagrams_eq (stream : Outbound) (datagrams : List (List Byte)) :
    (sendDatagrams stream datagrams).1 = (deliverAll stream (accepted datagrams)).1 := by
  induction datagrams generalizing stream with
  | nil => rfl
  | cons datagram datagrams ih =>
    have hlength : (datagram.take (maxFrame + 1)).length = min (maxFrame + 1) datagram.length :=
      List.length_take
    unfold sendDatagrams
    by_cases hfits : 1 ≤ datagram.length ∧ datagram.length ≤ maxFrame
    · -- it is read whole
      have hwhole : datagram.take (maxFrame + 1) = datagram :=
        List.take_of_length_le (by omega)
      have haccepted : accepted (datagram :: datagrams) = datagram :: accepted datagrams :=
        List.takeWhile_cons_of_pos (decide_eq_true hfits)
      rw [hwhole, haccepted]
      dsimp only
      rw [if_neg (not_not_intro hfits), deliverAll]
      generalize stream.write _ = result
      obtain ⟨written, all, rest⟩ := result
      cases all with
      | false => rfl
      | true => exact congrArg (written ++ ·) (ih rest)
    · have hrefused : accepted (datagram :: datagrams) = [] :=
        List.takeWhile_cons_of_neg (by rw [decide_eq_true_eq]; exact hfits)
      rw [hrefused]
      dsimp only
      rw [if_pos (by omega)]
      rfl

/-- **What a receiving relay sends**, against the frames there are. -/
theorem receiveDatagrams_eq (sends : ℕ → Bool) (rounds : ℕ) (s : Inbound) :
    let read := frameLoop udpTexts rounds s
    let sent := receiveDatagrams sends rounds s
    sent.1 <+: read.1 ∧ ((∀ n, sends n = true) → sent = read) ∧
      (sent.2 = read.2 ∧ sent.1 = read.1 ∨ sent.2 = .raised .os) := by
  induction rounds generalizing sends s with
  | zero => exact ⟨List.prefix_rfl, fun _ => rfl, .inl ⟨rfl, rfl⟩⟩
  | succ rounds ih =>
    unfold receiveDatagrams frameLoop
    generalize nextFrame udpTexts s = result
    dsimp only
    split
    · exact ⟨List.prefix_rfl, fun _ => rfl, .inl ⟨rfl, rfl⟩⟩
    · exact ⟨List.prefix_rfl, fun _ => rfl, .inl ⟨rfl, rfl⟩⟩
    next head frame rest =>
    obtain ⟨hpre, hall, hend⟩ := ih (fun n => sends (n + 1)) rest
    split
    · refine ⟨List.cons_prefix_cons.mpr ⟨rfl, hpre⟩, fun htrue => ?_, ?_⟩
      · rw [hall fun n => htrue (n + 1)]
      · exact hend.imp_left (And.imp_right fun hsent => congrArg (frame :: ·) hsent)
    · next hrefused =>
      refine ⟨?_, fun htrue => absurd (htrue 0) hrefused, .inr rfl⟩
      exact List.nil_prefix

/-- **The tunnel is transparent.** Whatever datagrams arrive at the sending relay, however the
connection takes and cuts what is written and wherever it breaks, and whichever local sends fail:
the receiving relay sends whole datagrams as they arrived, in order and each once, all before the
first that is empty or longer than 1100 bytes, and it ends. Unless a local send fails these are all
the datagrams that have come through whole, and it returns only if there is nothing else in the
stream. -/
theorem tunnel_transparent (datagrams : List (List Byte)) (stream : Outbound) (s : Inbound)
    (sends : ℕ → Bool) (hlink : s.bytes <+: (sendDatagrams stream datagrams).1) :
    let sent := receiveDatagrams sends (s.bytes.length + 1) s
    sent.1 <+: accepted datagrams ∧ sent.2 ≠ .running ∧
    ((∀ n, sends n = true) → Obtains (accepted datagrams) s.bytes sent.1) ∧
    (sent.2 = .returned → s.bytes = wire sent.1 ∧ s.ending = .closed) := by
  intro sent
  have hfits : ∀ frame ∈ accepted datagrams, Fits maxFrame frame := fun _ => accepted_fits
  have hpiece : s.bytes <+: wire (accepted datagrams) := by
    rw [sendDatagrams_eq, (deliverAll_writes stream (accepted datagrams)).written] at hlink
    refine hlink.trans ?_
    exact List.take_prefix _ _
  obtain ⟨hobtains, hrunning, hreturned⟩ :=
    frameLoop_of_piece udpTexts hfits hpiece (Nat.lt_succ_self _)
  obtain ⟨hpre, hall, hend⟩ := receiveDatagrams_eq sends (s.bytes.length + 1) s
  refine ⟨hpre.trans hobtains.sent, ?_, fun htrue => ?_, fun hsent => ?_⟩
  · rcases hend with ⟨houtcome, -⟩ | hfailed
    · exact fun heq => hrunning (houtcome ▸ heq)
    · exact fun heq => by rw [hfailed] at heq; cases heq
  · rw [show sent = _ from hall htrue]
    exact hobtains
  · rcases hend with ⟨houtcome, hsame⟩ | hfailed
    · rw [show sent.1 = _ from hsame]
      exact hreturned.mp (houtcome ▸ hsent)
    · rw [hfailed] at hsent
      cases hsent

/-- Two datagrams come through in segments of three bytes, and the empty one after them ends it. -/
theorem empty_datagram_ends_tunnel :
    let s : Inbound := [.segment 0 [2, 1], .segment 2 [0, 1], .segment 3 [], .closed]
    Obtains [[1, 2], [3]] s.bytes (receiveDatagrams (fun _ => true) 8 s).1 := by
  intro s
  have hlink : s.bytes <+: (sendDatagrams [.room 20] [[1, 2], [3], [], [4]]).1 := by decide
  exact (tunnel_transparent [[1, 2], [3], [], [4]] [.room 20] s (fun _ => true) hlink).2.2.1
    fun _ => rfl

end Transport
end PulseFanout
