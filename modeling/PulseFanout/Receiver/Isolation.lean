import PulseFanout.Receiver.Loop

/-!
# What one stream sees of the others

The streams of a receiver share the process: one `current_key` and one `current_stream`, which
every datagram overwrites, and one limit on the number of identities. Apart from the limit nothing
of this reaches a stream.

`Solo` is what a receiver is to a single identity: the stream, if it has been admitted, and the
frames of that identity on the ring. It looks at the ticks and at the datagrams of that identity
only. `Shows` relates a receiver to it, and a receiver that admits the identity at its first
datagram goes on showing it whatever else comes in (`shows_run`). The point is `receive` of the
decoder: it sees the rest of the process through `publish_frame` alone, which answers from the
window of the stream and adds to the ring (`publishFrame_answers`). So two receivers that get the
same view of an identity do the same for it (`stream_isolation`).
-/

namespace PulseFanout
namespace Receiver

open Framework Msg Multiplex Dedupe

/-! ### The view of one identity -/

/-- The identity a datagram comes under. -/
def Input.key? (e : Input) : Option Key := e.envelope?.map Prod.fst

/-- What an identity sees: the ticks, and its own datagrams. -/
def Input.concerns (A : Key) : Input → Bool
  | .tick _ => true
  | .datagram data truncated now => (Input.datagram data truncated now).key? = some A

/-- The inputs an identity sees. -/
def view (A : Key) (inputs : List Input) : List Input := inputs.filter (Input.concerns A)

/-- The frames of one identity on the ring. -/
def framesOf (A : Key) (ring : List Published) : List Published :=
  ring.filter fun p => keyOf p.frame = A

theorem framesOf_append (A : Key) (ring more : List Published) :
    framesOf A (ring ++ more) = framesOf A ring ++ framesOf A more :=
  List.filter_append ..

theorem framesOf_singleton {A : Key} {p : Published} (h : keyOf p.frame = A) :
    framesOf A [p] = [p] :=
  List.filter_cons_of_pos (by simpa using h)

theorem framesOf_singleton_ne {A : Key} {p : Published} (h : keyOf p.frame ≠ A) :
    framesOf A [p] = [] :=
  List.filter_cons_of_neg (by simpa using h)

/-- The identity is admitted at its first datagram. -/
def Admitted (cfg : Config) (A : Key) (inputs : List Input) : Prop :=
  ∀ i (hi : i < inputs.length), inputs[i].key? = some A →
    (∀ e ∈ inputs.take i, e.key? ≠ some A) →
    ((State.run cfg (inputs.take i)).streams.get cfg.fecGens A).isSome = true

instance (cfg : Config) (A : Key) (inputs : List Input) : Decidable (Admitted cfg A inputs) :=
  inferInstanceAs (Decidable (∀ i (_ : i < inputs.length), _ → _ → _))

deriving instance DecidableEq for Input

/-! ### A receiver with one stream -/

variable {cfg : Config} {A : Key}

/-- A receiver as one identity sees it. -/
structure Solo (cfg : Config) where
  stream : Option (Stream cfg.dedupeWindow) := none
  ring : List Published := []

namespace Solo

/-- The stream, new if there is none yet, takes a payload. -/
def take (A : Key) (T : Solo cfg) (payload : List Byte) (now : ℕ) : Solo cfg :=
  let (_, s, out) := receiveStream cfg A (T.stream.getD (Stream.new cfg.fecGens))
    { ring := T.ring } payload now
  ⟨some s, out.ring⟩

/-- One input. -/
def step (A : Key) (T : Solo cfg) : Input → Solo cfg
  | .tick now =>
    { T with stream := T.stream.map fun s =>
        { s with decoder := s.decoder.expire now Fec.Decoder.defaultTtl } }
  | .datagram data truncated now =>
    if cfg.echo then T
    else
      match (Input.datagram data truncated now).envelope? with
      | some (key, payload) => if key = A then T.take A payload now else T
      | none => T

/-- A run. -/
def run (cfg : Config) (A : Key) (inputs : List Input) : Solo cfg := inputs.foldl (step A) {}

theorem run_concat (inputs : List Input) (e : Input) :
    run cfg A (inputs ++ [e]) = (run cfg A inputs).step A e := by
  rw [run, List.foldl_append, List.foldl_cons, List.foldl_nil, run]

/-- Datagrams of other identities are passed over. -/
theorem step_other (T : Solo cfg) {e : Input} (h : e.concerns A = false) : T.step A e = T := by
  cases e with
  | tick now => cases h
  | datagram data truncated now =>
    have hkey : (Input.datagram data truncated now).key? ≠ some A := of_decide_eq_false h
    unfold step
    dsimp only
    split
    · rfl
    split
    · next key payload henv =>
      rw [if_neg]
      rintro rfl
      exact hkey (by rw [Input.key?, henv]; rfl)
    · rfl

/-- **Only the view counts.** -/
theorem run_view (inputs : List Input) : run cfg A (view A inputs) = run cfg A inputs := by
  induction inputs using List.reverseRecOn with
  | nil => rfl
  | append_singleton inputs e ih =>
    rw [view, List.filter_append, run_concat]
    cases hconcerns : e.concerns A with
    | true =>
      rw [List.filter_cons_of_pos hconcerns, List.filter_nil, run_concat]
      exact congrArg (step A · e) ih
    | false =>
      rw [List.filter_cons_of_neg (by rw [hconcerns]; exact Bool.false_ne_true), List.filter_nil,
        List.append_nil, step_other _ hconcerns]
      exact ih

/-- While there is no stream, there was no datagram for it. -/
theorem key_ne_of_stream (hecho : cfg.echo = false) (inputs : List Input)
    (h : (run cfg A inputs).stream = none) : ∀ e ∈ inputs, e.key? ≠ some A := by
  induction inputs using List.reverseRecOn with
  | nil => exact fun e he => absurd he List.not_mem_nil
  | append_singleton inputs e ih =>
    rw [run_concat] at h
    -- a datagram of the stream opens it, and nothing closes it
    have hlast : (run cfg A inputs).stream = none ∧ e.key? ≠ some A := by
      cases e with
      | tick now => exact ⟨Option.map_eq_none_iff.mp h, nofun⟩
      | datagram data truncated now =>
        unfold step at h
        dsimp only at h
        rw [if_neg (by rw [hecho]; exact Bool.false_ne_true)] at h
        rw [Input.key?]
        split at h
        · next key payload henv =>
          rw [henv]
          split at h
          · cases h
          · next hne => exact ⟨h, fun heq => hne (Option.some.inj heq)⟩
        · next henv =>
          rw [henv]
          exact ⟨h, nofun⟩
    intro e' he'
    rcases List.mem_append.mp he' with he' | he'
    · exact ih hlast.1 e' he'
    · rw [List.mem_singleton.mp he']
      exact hlast.2

end Solo

/-! ### `publish_frame` and the rest of the process -/

/-- Two sessions of a stream, the second with the frames of its identity only. -/
structure SameSession (A : Key) {w : WindowSize} (s t : Session w) : Prop where
  dedupe : s.dedupe = t.dedupe
  lastSeq : s.lastSeq = t.lastSeq
  ring : framesOf A s.out.ring = t.out.ring

namespace SameSession

variable {w : WindowSize} {s t : Session w} {m : Native}

theorem note (h : SameSession A s t) : SameSession A (s.note m) (t.note m) :=
  ⟨h.dedupe, h.lastSeq, h.ring⟩

/-- A frame of the identity is put on both rings. -/
theorem ring_concat (h : SameSession A s t) (hkey : keyOf m = A) (len : ℕ) :
    framesOf A (s.out.ring ++ [⟨m, len⟩]) = t.out.ring ++ [⟨m, len⟩] := by
  rw [framesOf_append, framesOf_singleton (p := ⟨m, len⟩) hkey, h.ring]

theorem publishAccepted (h : SameSession A s t) (hkey : keyOf m = A) (len : ℕ)
    (recovered : Bool) :
    SameSession A (s.publishAccepted m len recovered) (t.publishAccepted m len recovered) := by
  refine ⟨?_, h.lastSeq, ?_⟩
  · rw [Session.publishAccepted_dedupe, Session.publishAccepted_dedupe, h.dedupe]
  · rw [Session.publishAccepted_ring, Session.publishAccepted_ring, h.dedupe]
    split
    · exact h.ring_concat hkey len
    · exact h.ring

theorem publishNewer (h : SameSession A s t) (hkey : keyOf m = A) (len : ℕ) :
    SameSession A (s.publishNewer m len) (t.publishNewer m len) := by
  unfold Session.publishNewer
  by_cases hnewer : s.lastSeq < seqOf m
  · rw [if_pos hnewer, if_pos (h.lastSeq ▸ hnewer)]
    exact ⟨h.dedupe, rfl, h.ring_concat hkey len⟩
  · rw [if_neg hnewer, if_neg (h.lastSeq ▸ hnewer)]
    exact ⟨h.dedupe, h.lastSeq, h.ring⟩

end SameSession

/-- The identity check of `publish_frame`. -/
theorem keyOf_eq {m : Native}
    (h : ¬ (m.header.streamId ≠ A.stream ∨ m.header.streamEpoch ≠ A.epoch)) : keyOf m = A := by
  push Not at h
  rw [keyOf, h.1, h.2]

/-- **`publish_frame` answers from the stream.** -/
theorem publishFrame_answers (cfg : Config) (A : Key) :
    Fec.Answers (publishFrame cfg A) (publishFrame cfg A) (SameSession A) := by
  intro frame recovered reason s t hst
  unfold publishFrame
  split
  · next m len _ =>
    split
    · exact ⟨rfl, hst⟩
    next hkey =>
    split
    · exact ⟨rfl, hst.note.publishAccepted (keyOf_eq hkey) len recovered⟩
    · exact ⟨rfl, hst.note.publishNewer (keyOf_eq hkey) len⟩
  · exact ⟨rfl, hst⟩

/-- **`publish_frame` of another stream** puts none of the identity's frames on the ring. -/
theorem publishFrame_other {B : Key} (hne : B ≠ A) (ring : List Published) :
    Fec.Keeps (publishFrame cfg B) fun s => framesOf A s.out.ring = ring := by
  intro frame recovered reason s hring
  unfold publishFrame
  split
  · next m len _ =>
    split
    · exact hring
    next hkey =>
    have hm : keyOf m ≠ A := by
      rw [keyOf_eq hkey]
      exact hne
    have hsame : framesOf A (s.out.ring ++ [⟨m, len⟩]) = ring := by
      rw [framesOf_append, framesOf_singleton_ne (p := ⟨m, len⟩) hm, List.append_nil, hring]
    split
    · rw [Session.publishAccepted_ring]
      split
      · exact hsame
      · exact hring
    · unfold Session.publishNewer
      split
      · exact hsame
      · exact hring
  · exact hring

/-! ### Runs -/

/-- What a receiver shows to an identity. -/
structure Shows (A : Key) (R : State cfg) (T : Solo cfg) : Prop where
  stream : R.streams.find A = T.stream
  ring : framesOf A R.out.ring = T.ring

namespace Shows

variable {R : State cfg} {T : Solo cfg}

theorem start : Shows A ({} : State cfg) ({} : Solo cfg) where
  stream := (Registry.find_eq_none _).mpr List.not_mem_nil
  ring := rfl

/-- The stream of the identity takes a payload. -/
theorem take (h : Shows A R T) {s : Stream cfg.dedupeWindow}
    {streams : Streams cfg.dedupeWindow cfg.maxStreams}
    (hget : R.streams.get cfg.fecGens A = some (s, streams)) {R' : State cfg}
    {payload : List Byte} {now : ℕ}
    (hstreams : R'.streams = streams.put A (receiveStream cfg A s R.out payload now).2.1)
    (hout : R'.out = (receiveStream cfg A s R.out payload now).2.2) :
    Shows A R' (T.take A payload now) := by
  obtain ⟨hfind, -, hcase⟩ := Registry.getOrAdd_cases hget
  have hstream : T.stream.getD (Stream.new cfg.fecGens) = s := by
    rw [← h.stream]
    rcases hcase with ⟨hold, -⟩ | ⟨hnew, rfl, -⟩
    · rw [hold]
      rfl
    · rw [hnew]
      rfl
  -- the two sessions differ in what other streams have put out
  have hsame : SameSession A (⟨s.dedupe, s.lastSeq, R.out⟩ : Session cfg.dedupeWindow)
      ⟨s.dedupe, s.lastSeq, { ring := T.ring }⟩ := ⟨rfl, rfl, h.ring⟩
  obtain ⟨-, hdecoder, hsession⟩ := (publishFrame_answers cfg A).receive
    (Fec.Decoder.Alike.refl True True s.decoder) payload now hsame
  refine ⟨?_, ?_⟩
  · rw [hstreams, Registry.find_put _ (streams.mem_keys_of_find hfind)]
    unfold Solo.take
    rw [hstream]
    dsimp only [receiveStream]
    rw [hdecoder.eq_of_full, hsession.dedupe, hsession.lastSeq]
  · rw [hout]
    unfold Solo.take
    rw [hstream]
    exact hsession.ring

/-- Another stream takes a payload. -/
theorem other (h : Shows A R T) {B : Key} (hne : B ≠ A) {s : Stream cfg.dedupeWindow}
    {streams : Streams cfg.dedupeWindow cfg.maxStreams}
    (hget : R.streams.get cfg.fecGens B = some (s, streams)) {R' : State cfg}
    {payload : List Byte} {now : ℕ}
    (hstreams : R'.streams = streams.put B (receiveStream cfg B s R.out payload now).2.1)
    (hout : R'.out = (receiveStream cfg B s R.out payload now).2.2) : Shows A R' T := by
  obtain ⟨-, -, hcase⟩ := Registry.getOrAdd_cases hget
  refine ⟨?_, ?_⟩
  · rw [hstreams, Registry.find_put_ne _ (Ne.symm hne)]
    rcases hcase with ⟨-, rfl⟩ | ⟨-, -, hothers⟩
    · exact h.stream
    · rw [hothers A (Ne.symm hne)]
      exact h.stream
  · rw [hout]
    exact (publishFrame_other hne T.ring).receive s.decoder payload now _ h.ring

/-- **One input.** -/
theorem step (h : Shows A R T) {e : Input}
    (hadmitted : cfg.echo = false → e.key? = some A →
      (R.streams.get cfg.fecGens A).isSome = true) :
    Shows A (R.step e) (T.step A e) := by
  cases e with
  | tick now =>
    refine ⟨?_, h.ring⟩
    change (R.streams.map _).find A = _
    rw [Registry.find_map, h.stream]
    rfl
  | datagram data truncated now =>
    unfold Solo.step
    dsimp only
    rcases R.datagram_cases data truncated now with
      ⟨hstreams, hout, hwhy⟩ | ⟨key, payload, s, streams, hecho, henv, hget, hstreams, hout⟩
    · -- nothing happens, and nothing is due
      have hstill : Shows A (R.step (.datagram data truncated now)) T :=
        ⟨by rw [hstreams, h.stream], by rw [hout, h.ring]⟩
      split
      · exact hstill
      next hecho =>
      have hecho' := Bool.eq_false_of_not_eq_true hecho
      have hnone := hwhy.resolve_left hecho
      split
      · next key payload henv =>
        rw [if_neg]
        · exact hstill
        rintro rfl
        have hsome := hadmitted hecho' (by rw [Input.key?, henv]; rfl)
        rw [hnone key payload henv] at hsome
        cases hsome
      · exact hstill
    · rw [if_neg (by rw [hecho]; exact Bool.false_ne_true), henv]
      dsimp only
      by_cases hkey : key = A
      · subst hkey
        rw [if_pos rfl]
        exact h.take hget hstreams hout
      · rw [if_neg hkey]
        exact h.other hkey hget hstreams hout

end Shows

theorem Admitted.of_concat {inputs : List Input} {e : Input} (h : Admitted cfg A (inputs ++ [e])) :
    Admitted cfg A inputs := by
  intro i hi hkey hfirst
  have htake : (inputs ++ [e]).take i = inputs.take i :=
    List.take_append_of_le_length hi.le
  have hsome := h i (by rw [List.length_append]; omega) (by rw [List.getElem_append_left hi, hkey])
  rw [htake] at hsome
  exact hsome hfirst

theorem Admitted.last {inputs : List Input} {e : Input} (h : Admitted cfg A (inputs ++ [e]))
    (hkey : e.key? = some A) (hfirst : ∀ e ∈ inputs, e.key? ≠ some A) :
    ((State.run cfg inputs).streams.get cfg.fecGens A).isSome = true := by
  have hsome := h inputs.length (by rw [List.length_append]; exact Nat.lt_succ_self _)
  rw [List.take_left, List.getElem_concat_length rfl] at hsome
  exact hsome hkey hfirst

/-- **Every run.** -/
theorem shows_run {inputs : List Input} (h : Admitted cfg A inputs) :
    Shows A (State.run cfg inputs) (Solo.run cfg A inputs) := by
  induction inputs using List.reverseRecOn with
  | nil => exact Shows.start
  | append_singleton inputs e ih =>
    have hshows := ih h.of_concat
    rw [State.run_concat, Solo.run_concat]
    refine hshows.step fun hecho hkey => ?_
    -- the first datagram of the identity, or one of a stream that is there
    cases hstream : (Solo.run cfg A inputs).stream with
    | none => exact h.last hkey (Solo.key_ne_of_stream hecho inputs hstream)
    | some s =>
      refine (Registry.getOrAdd_isSome _ _ _).mpr (Or.inl ?_)
      exact Registry.mem_keys_of_find _ (hshows.stream.trans hstream)

/-- **Stream isolation.** Two runs of a receiver, over any inputs, in which an identity sees the
same ticks and datagrams and is admitted at its first datagram, end with the same state of its
stream, the counters of its window and of its decoder included, and with the same frames of that
identity on the ring, in the same order. -/
theorem stream_isolation (cfg : Config) (A : Key) (inputs inputs' : List Input)
    (hview : view A inputs = view A inputs') (hadmitted : Admitted cfg A inputs)
    (hadmitted' : Admitted cfg A inputs') :
    framesOf A (State.run cfg inputs).out.ring = framesOf A (State.run cfg inputs').out.ring ∧
      (State.run cfg inputs).streams.find A = (State.run cfg inputs').streams.find A := by
  have hsolo : Solo.run cfg A inputs = Solo.run cfg A inputs' := by
    rw [← Solo.run_view, hview, Solo.run_view]
  have hshows := shows_run hadmitted
  have hshows' := shows_run hadmitted'
  exact ⟨by rw [hshows.ring, hshows'.ring, hsolo], by rw [hshows.stream, hshows'.stream, hsolo]⟩

/-- A frame, a tick, and the frame again; and the same among a datagram without a header, the frame
under another identity, and a shard of that identity that opens a generation. -/
theorem frame_among_others :
    let frame := Wire.bytes (.trade Wire.goldenTrade)
    let shard := Fec.dataDatagram 0 0 1 frame
    let alone : List Input := [.datagram (Multiplex.wrap ⟨11, 12⟩ frame) false 5, .tick 7,
      .datagram (Multiplex.wrap ⟨11, 12⟩ frame) false 9]
    let mixed : List Input := [.datagram [1, 2, 3] false 3,
      .datagram (Multiplex.wrap ⟨11, 13⟩ frame) false 4,
      .datagram (Multiplex.wrap ⟨11, 12⟩ frame) false 5,
      .datagram (Multiplex.wrap ⟨11, 13⟩ shard) false 6, .tick 7,
      .datagram (Multiplex.wrap ⟨11, 12⟩ frame) false 9]
    (framesOf ⟨11, 12⟩ (State.run smallConfig alone).out.ring).length = 1 ∧
      framesOf ⟨11, 12⟩ (State.run smallConfig alone).out.ring =
        framesOf ⟨11, 12⟩ (State.run smallConfig mixed).out.ring := by
  refine ⟨by decide +kernel, ?_⟩
  exact (stream_isolation smallConfig ⟨11, 12⟩ _ _ (by decide +kernel) (by decide +kernel)
    (by decide +kernel)).1

end Receiver
end PulseFanout
