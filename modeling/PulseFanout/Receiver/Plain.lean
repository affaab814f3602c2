import PulseFanout.Receiver.Isolation

/-!
# A stream without FEC

The frames of a sender without FEC come as they are, each in a datagram of its own, and the decoder
passes them on: a frame does not start like a shard (`bytes_not_shard`). What such a stream then is
to the ring depends on its window alone.

`InStep` is about a stream that is sent the messages of a list in the order of their numbers, any
of them again at any time: its part of the ring is that list. A new message goes to the end
(`InStep.fresh`), one that comes again changes nothing (`InStep.again`), and neither do the other
streams of the receiver (`InStep.other`), which may do what they like.
-/

namespace PulseFanout
namespace Receiver

open Framework Msg Multiplex Dedupe

/-! ### Frames that are no shards -/

/-- A frame starts with its own magic. -/
theorem bytes_start (m : Native) : ∃ rest, Wire.bytes m = Scalar.u32.put Wire.magic ++ rest := by
  cases m with
  | trade t => exact ⟨_, rfl⟩
  | bbo b => exact ⟨_, rfl⟩
  | orderBook b => exact ⟨_, rfl⟩

/-- **A frame does not look like a shard.** -/
theorem bytes_not_shard (m : Native) :
    (Fec.readEnvelope (Wire.bytes m)).magic ≠ Fec.kMagic := by
  have hlong : Fec.Envelope.fields.size ≤ (Wire.bytes m).length := by
    have hbounds := Wire.wireSize_bounds m.type
    rw [Wire.bytes_length, Fec.Envelope.fields_size, Fec.kEnvelopeSize]
    omega
  obtain ⟨e, hget⟩ := Fec.Envelope.fields.exists_get hlong
  obtain ⟨⟨fields, tail⟩, hfields, heq⟩ := Option.map_eq_some_iff.mp hget
  obtain ⟨hmagic, -⟩ := Wire.pair_get hfields
  -- the first four bytes are read as the magic of the envelope
  obtain ⟨body, hbody⟩ := bytes_start m
  rw [hbody, Scalar.u32.get_put] at hmagic
  have hread : (Fec.readEnvelope (Wire.bytes m)).magic = fields.1 := by
    rw [Fec.readEnvelope, hget]
    exact (congrArg (fun r => Fec.Envelope.magic (Prod.fst r)) heq).symm
  rw [hread, ← congrArg Prod.fst (Option.some.inj hmagic)]
  exact (by decide : Wire.magic ≠ Fec.kMagic)

variable {cfg : Config} {A : Key}

/-- A frame of the stream goes through the decoder to the window. -/
theorem receiveStream_bytes (hd : cfg.dedupeEnabled = true) {m : Native}
    (hvalid : validateFrame m.header m.size = true) (hkey : keyOf m = A)
    (s : Stream cfg.dedupeWindow) (out : Output) (now : ℕ) :
    receiveStream cfg A s out (Wire.bytes m) now =
      (true, { s with dedupe := (s.dedupe.observe (seqOf m)).2 },
        (((⟨s.dedupe, s.lastSeq, out⟩ : Session cfg.dedupeWindow).note m).publishAccepted m m.size
          false).out) := by
  unfold receiveStream Fec.Decoder.receive
  rw [if_pos (Or.inr (bytes_not_shard m)), publishFrame_bytes hd hvalid hkey]
  rfl

/-! ### The stream -/

/-- The receiver as an identity sees it. -/
def State.solo (A : Key) (R : State cfg) : Solo cfg :=
  ⟨R.streams.find A, framesOf A R.out.ring⟩

theorem State.shows_solo (R : State cfg) : Shows A R (R.solo A) := ⟨rfl, rfl⟩

/-- What is shown is all there is to see. -/
theorem Shows.solo_eq {R : State cfg} {T : Solo cfg} (h : Shows A R T) : R.solo A = T := by
  rw [State.solo, h.stream, h.ring]

/-- `msgs` are on the ring, and the window has accepted their numbers and no others. -/
structure InStep (msgs : List Native) (T : Solo cfg) : Prop where
  ring : T.ring.map Published.frame = msgs
  unopened : T.stream = none → msgs = []
  tracks : ∀ s, T.stream = some s → Tracks s.dedupe ⟨(msgs.map seqOf).head?, msgs.map seqOf⟩

namespace InStep

variable {msgs : List Native} {T : Solo cfg} {m : Native}

theorem start : InStep [] ({} : Solo cfg) where
  ring := rfl
  unopened := fun _ => rfl
  tracks := fun s hs => by cases hs

/-- The window of the stream, also if it is only opened now. -/
theorem window (h : InStep msgs T) :
    Tracks (T.stream.getD (Stream.new cfg.fecGens)).dedupe
      ⟨(msgs.map seqOf).head?, msgs.map seqOf⟩ := by
  cases hs : T.stream with
  | none =>
    rw [h.unopened hs]
    exact Tracks.fresh cfg.dedupeWindow
  | some s => exact h.tracks s hs

section Take

variable (hd : cfg.dedupeEnabled = true) (hvalid : validateFrame m.header m.size = true)
  (hkey : keyOf m = A) (hclear : Clear cfg.dedupeWindow m)
include hd hvalid hkey hclear

/-- The stream takes the frame of a message: the window decides. -/
theorem take (h : InStep msgs T) (now : ℕ) :
    ((T.take A (Wire.bytes m) now).ring.map Published.frame =
      if (⟨(msgs.map seqOf).head?, msgs.map seqOf⟩ : Ledger).Admits cfg.dedupeWindow (seqOf m)
      then msgs ++ [m] else msgs) ∧
    ∃ s, (T.take A (Wire.bytes m) now).stream = some s ∧
      Tracks s.dedupe ((⟨(msgs.map seqOf).head?, msgs.map seqOf⟩ : Ledger).observe
        cfg.dedupeWindow (seqOf m)) := by
  obtain ⟨hiff, -, hnext⟩ := h.window.observe (Nat.add_lt_of_lt_sub hclear)
  unfold Solo.take
  rw [receiveStream_bytes hd hvalid hkey]
  refine ⟨?_, _, rfl, hnext⟩
  dsimp only
  rw [Session.publishAccepted_ring]
  change (if ((T.stream.getD (Stream.new cfg.fecGens)).dedupe.observe (seqOf m)).1.accepts
    then T.ring ++ [⟨m, m.size⟩] else T.ring).map Published.frame = _
  by_cases hadm : (⟨(msgs.map seqOf).head?, msgs.map seqOf⟩ : Ledger).Admits cfg.dedupeWindow
      (seqOf m)
  · rw [if_pos hadm, if_pos (hiff.mpr hadm), List.map_append, h.ring]
    rfl
  · rw [if_neg hadm, if_neg (fun hacc => hadm (hiff.mp hacc)), h.ring]

/-- **A message after all the others** goes to the end of the ring. -/
theorem fresh (h : InStep msgs T) (hafter : ∀ m' ∈ msgs, seqOf m' < seqOf m) (now : ℕ) :
    InStep (msgs ++ [m]) (T.take A (Wire.bytes m) now) := by
  obtain ⟨hring, s, hs, htracks⟩ := h.take hd hvalid hkey hclear now
  have hadm : (⟨(msgs.map seqOf).head?, msgs.map seqOf⟩ : Ledger).Admits cfg.dedupeWindow
      (seqOf m) := by
    have hbelow : ∀ a ∈ msgs.map seqOf, a < seqOf m := by
      intro a ha
      obtain ⟨m', hm', rfl⟩ := List.mem_map.mp ha
      exact hafter m' hm'
    refine ⟨fun f hf => (hbelow f (List.mem_of_mem_head? hf)).le, fun hmem => ?_, fun a ha => ?_⟩
    · exact absurd (hbelow _ hmem) (lt_irrefl _)
    · exact Nat.lt_add_right _ (hbelow a ha)
  rw [if_pos hadm] at hring
  refine ⟨hring, fun hnone => ?_, fun s' hs' => ?_⟩
  · rw [hs] at hnone
    cases hnone
  · obtain rfl : s = s' := Option.some.inj (hs.symm.trans hs')
    rw [Ledger.observe, if_pos hadm] at htracks
    -- the first number stays, or is that of `m` if there was none
    have hfirst : some ((msgs.map seqOf).head?.getD (seqOf m)) =
        ((msgs ++ [m]).map seqOf).head? := by
      cases msgs with
      | nil => rfl
      | cons _ _ => rfl
    rw [List.map_append, List.map_singleton] at hfirst ⊢
    rw [← hfirst]
    exact htracks

/-- **A message that comes again** changes nothing. -/
theorem again (h : InStep msgs T) (hmem : m ∈ msgs) (now : ℕ) :
    InStep msgs (T.take A (Wire.bytes m) now) := by
  obtain ⟨hring, s, hs, htracks⟩ := h.take hd hvalid hkey hclear now
  have hrej : ¬ (⟨(msgs.map seqOf).head?, msgs.map seqOf⟩ : Ledger).Admits cfg.dedupeWindow
      (seqOf m) := fun hadm => hadm.2.1 (List.mem_map_of_mem hmem)
  rw [if_neg hrej] at hring
  refine ⟨hring, fun hnone => ?_, fun s' hs' => ?_⟩
  · rw [hs] at hnone
    cases hnone
  · obtain rfl : s = s' := Option.some.inj (hs.symm.trans hs')
    rw [Ledger.observe, if_neg hrej] at htracks
    have hfirst : some ((msgs.map seqOf).head?.getD (seqOf m)) = (msgs.map seqOf).head? := by
      cases msgs with
      | nil => exact absurd hmem List.not_mem_nil
      | cons _ _ => rfl
    dsimp only at htracks
    rw [hfirst] at htracks
    exact htracks

end Take

/-! ### The receiver -/

variable {R : State cfg}

/-- A tick, or a datagram of another identity or of none. -/
theorem other (h : InStep msgs (R.solo A)) {e : Input} (he : e.key? ≠ some A) :
    InStep msgs ((R.step e).solo A) := by
  have hshows := R.shows_solo.step (A := A) (e := e) fun _ hkey => absurd hkey he
  rw [hshows.solo_eq]
  cases e with
  | tick now =>
    refine ⟨h.ring, fun hnone => h.unopened (Option.map_eq_none_iff.mp hnone), fun s hs => ?_⟩
    -- only the decoder is touched
    obtain ⟨s', hs', rfl⟩ := Option.map_eq_some_iff.mp hs
    exact h.tracks s' hs'
  | datagram data truncated now =>
    have hother : (Input.datagram data truncated now).concerns A = false := decide_eq_false he
    rw [Solo.step_other _ hother]
    exact h

end InStep

/-- The answers a receiver gives to an input. -/
def State.answers (R : State cfg) (e : Input) : List Bool := (R.step e).acks.drop R.acks.length

/-- **A datagram at its stream.** It is not answered and the stream does not change, its identity
not being admitted; or the stream takes the payload and the answer says what came of it. -/
theorem State.wrapped_cases (hecho : cfg.echo = false) (hack : cfg.ackPublish = true)
    (hA : A.stream ≠ 0 ∧ A.epoch ≠ 0) (R : State cfg) (payload : List Byte) (now : ℕ) :
    (R.answers (.datagram (wrap A payload) false now) = [] ∧
      (R.step (.datagram (wrap A payload) false now)).solo A = R.solo A) ∨
    (R.answers (.datagram (wrap A payload) false now) =
        [(receiveStream cfg A ((R.solo A).stream.getD (Stream.new cfg.fecGens)) R.out payload
          now).1] ∧
      (R.step (.datagram (wrap A payload) false now)).solo A =
        (R.solo A).take A payload now) := by
  have hopen : unwrap (wrap A payload) R.currentKey = (some payload, A) :=
    unwrap_eq_some.mpr ⟨rfl, hA.1, hA.2⟩
  have hecho' : ¬ cfg.echo = true := by rw [hecho]; exact Bool.false_ne_true
  -- the step, once the header is off
  have hstep : R.step (.datagram (wrap A payload) false now) =
      State.deliver { R with received := R.received + 1, currentKey := A } payload now := by
    unfold State.step State.receive
    dsimp only
    rw [if_neg hecho', if_neg Bool.false_ne_true, hopen]
  unfold State.answers
  rw [hstep]
  unfold State.deliver
  dsimp only
  cases hget : R.streams.get cfg.fecGens A with
  | none => exact Or.inl ⟨List.drop_length, rfl⟩
  | some found =>
    obtain ⟨s, streams⟩ := found
    obtain ⟨-, -, hcase⟩ := Registry.getOrAdd_cases hget
    have hstream : (R.solo A).stream.getD (Stream.new cfg.fecGens) = s := by
      change (R.streams.find A).getD _ = s
      rcases hcase with ⟨hold, -⟩ | ⟨hnew, rfl, -⟩
      · rw [hold]
        rfl
      · rw [hnew]
        rfl
    refine Or.inr ⟨?_, ?_⟩
    · dsimp only
      rw [if_pos hack, List.drop_left, hstream]
    · exact (R.shows_solo.take hget rfl rfl).solo_eq

end Receiver
end PulseFanout
