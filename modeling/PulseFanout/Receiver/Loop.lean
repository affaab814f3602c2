import PulseFanout.Dedupe.Verdict
import PulseFanout.Fec.Alike
import PulseFanout.Receiver.Multiplex
import PulseFanout.Wire.Frame

/-!
# The receiver (`receiver.cpp`)

Every datagram is unwrapped, goes to the FEC decoder of its stream, and whatever the decoder
hands to `publish_frame` (the datagram itself, a data shard's frame, or a frame recovered
from parity) is decoded, checked against the identity of the envelope and shown to the
stream's dedupe window; what the window accepts is published on the output ring.

The callback works on the current stream, short of its decoder, and on the counters of the
process: that is a `Session`. `Output.observed` is a history variable: the frames that
passed the identity check, in order. No decision reads it.

* `publishFrame_cases` — the ways one call of `publish_frame` can go.
* `Within` — what any number of calls during one datagram can do: the ring and the history
  grow by frames of the envelope's identity, and the window still stands for the ledger of
  the stream's own history (`Accounts`).
* `State.step_cases` — an input either leaves the output and every window alone or is a
  wrapped datagram of an admitted stream.
* `output_safety` — over any inputs: everything on the ring is a valid frame of the identity
  it came under, no two have the same identity and sequence number, and identities are
  admitted up to the limit and never dropped.
-/

namespace PulseFanout
namespace Receiver

open Framework Msg Multiplex Dedupe

/-! ### Configuration and state -/

/-- The part of `Config` the receive loop reads, with what `parse_args` checks of it. -/
structure Config where
  maxStreams : ℕ := 16
  dedupeWindow : WindowSize
  dedupeEnabled : Bool := true
  fecGens : ℕ := 64
  echo : Bool := false
  ackPublish : Bool := false
  /-- Larger windows are refused. -/
  window_le : dedupeWindow.val ≤ 2 ^ 26

/-- The identity in a frame's header. -/
def keyOf (m : Native) : Key := ⟨m.header.streamId, m.header.streamEpoch⟩

/-- The sequence number in a frame's header. -/
def seqOf (m : Native) : ℕ := m.header.seqId.toNat

/-- A frame on the ring, with the length `ring.publish` was given. -/
structure Published where
  frame : Native
  len : ℕ

/-- What `publish_frame` writes besides the stream. -/
structure Output where
  ring : List Published := []
  published : ℕ := 0
  oldDuplicates : ℕ := 0
  fecLateRecoveredTooOld : ℕ := 0
  /-- History: the frames that passed the identity check. -/
  observed : List Native := []

/-- `ring.publish(frame, len); ++published` -/
def Output.publish (out : Output) (frame : Native) (len : ℕ) : Output :=
  { out with ring := out.ring ++ [⟨frame, len⟩], published := out.published + 1 }

/-- What the callback works on. -/
structure Session (w : WindowSize) where
  dedupe : Window w
  lastSeq : ℕ
  out : Output

namespace Session

variable {w : WindowSize}

/-- The history grows by a frame. -/
def note (s : Session w) (m : Native) : Session w :=
  { s with out := { s.out with observed := s.out.observed ++ [m] } }

/-- `publish_frame` with the window disabled: only what is newer than everything before. -/
def publishNewer (s : Session w) (m : Native) (len : ℕ) : Session w :=
  if s.lastSeq < seqOf m then
    { s with lastSeq := seqOf m, out := s.out.publish m len }
  else { s with out := { s.out with oldDuplicates := s.out.oldDuplicates + 1 } }

/-- `publish_frame` with the window enabled. -/
def publishAccepted (s : Session w) (m : Native) (len : ℕ) (recovered : Bool) : Session w :=
  let (result, dedupe) := s.dedupe.observe (seqOf m)
  let out :=
    if recovered ∧ result = .tooOld then
      { s.out with fecLateRecoveredTooOld := s.out.fecLateRecoveredTooOld + 1 }
    else s.out
  { s with dedupe, out := if result.accepts then out.publish m len else out }

end Session

/-- `publish_frame`, with `key` for `current_key`. -/
def publishFrame (cfg : Config) (key : Key) : Fec.Publish (Session cfg.dedupeWindow) :=
  fun frame recovered _ s =>
    match Wire.decode frame { frame := none, nativeLen := 0 } with
    | (true, { frame := some native, nativeLen }) =>
      if native.header.streamId ≠ key.stream ∨ native.header.streamEpoch ≠ key.epoch then (false, s)
      else if cfg.dedupeEnabled then
        (true, (s.note native).publishAccepted native nativeLen recovered)
      else (true, (s.note native).publishNewer native nativeLen)
    | _ => (false, s)

/-- `current_stream->decoder.receive(payload, length, now, publish_frame)`, with what it does
to the stream and to the output. -/
def receiveStream (cfg : Config) (key : Key) (s : Stream cfg.dedupeWindow) (out : Output)
    (payload : List Byte) (now : ℕ) : Bool × Stream cfg.dedupeWindow × Output :=
  let (ok, decoder, session) :=
    s.decoder.receive (publishFrame cfg key) payload now ⟨s.dedupe, s.lastSeq, out⟩
  (ok, ⟨decoder, session.dedupe, session.lastSeq⟩, session.out)

/-- The process while it is in its loop. -/
structure State (cfg : Config) where
  streams : Streams cfg.dedupeWindow cfg.maxStreams := Registry.empty
  currentKey : Key := {}
  received : ℕ := 0
  echoed : ℕ := 0
  rejected : ℕ := 0
  /-- The acknowledgement bytes sent, as booleans. -/
  acks : List Bool := []
  out : Output := {}

/-- What the loop reacts to. -/
inductive Input
  /-- The start of a round: every decoder expires what is stale. -/
  | tick (now : ℕ)
  /-- A datagram, with the `MSG_TRUNC` flag of the kernel. -/
  | datagram (data : List Byte) (truncated : Bool) (now : ℕ)

/-- The identity and the payload of a datagram whose header is accepted. -/
def Input.envelope? : Input → Option (Key × List Byte)
  | .tick _ => none
  | .datagram data truncated _ =>
    if truncated then none
    else
      match unwrap data {} with
      | (some payload, key) => some (key, payload)
      | (none, _) => none

theorem Input.envelope?_eq_some {data payload : List Byte} {truncated : Bool} {now : ℕ}
    {key : Key} (h : (Input.datagram data truncated now).envelope? = some (key, payload)) :
    truncated = false ∧ unwrap data {} = (some payload, key) := by
  unfold envelope? at h
  dsimp only at h
  split at h
  · cases h
  · next htrunc =>
    split at h
    · next heq =>
      cases h
      exact ⟨Bool.eq_false_of_not_eq_true htrunc, heq⟩
    · cases h

namespace State

variable {cfg : Config}

/-- `++rejected` -/
def reject (R : State cfg) : State cfg := { R with rejected := R.rejected + 1 }

/-- The tail of the loop body, once the datagram is unwrapped. -/
def deliver (R : State cfg) (payload : List Byte) (now : ℕ) : State cfg :=
  match R.streams.get cfg.fecGens R.currentKey with
  | none => R.reject
  | some (s, streams) =>
    let (ok, s, out) := receiveStream cfg R.currentKey s R.out payload now
    { R with
      streams := streams.put R.currentKey s
      out
      rejected := if ok then R.rejected else R.rejected + 1
      acks := if cfg.ackPublish then R.acks ++ [ok] else R.acks }

/-- The loop body for one datagram. -/
def receive (R : State cfg) (data : List Byte) (truncated : Bool) (now : ℕ) : State cfg :=
  let R := { R with received := R.received + 1 }
  if truncated then R.reject
  else
    -- the key is overwritten even by a datagram whose header is refused
    let (payload, currentKey) := unwrap data R.currentKey
    let R := { R with currentKey }
    match payload with
    | none => R.reject
    | some payload => R.deliver payload now

/-- `item.second->decoder.expire(now)` for every stream. -/
def expire (R : State cfg) (now : ℕ) : State cfg :=
  { R with streams := R.streams.map fun s =>
      { s with decoder := s.decoder.expire now Fec.Decoder.defaultTtl } }

/-- One input. In echo mode a datagram is sent back and nothing else happens. -/
def step (R : State cfg) : Input → State cfg
  | .tick now => R.expire now
  | .datagram data truncated now =>
    if cfg.echo then { R with received := R.received + 1, echoed := R.echoed + 1 }
    else R.receive data truncated now

/-- A run of the loop from its start. -/
def run (cfg : Config) (inputs : List Input) : State cfg := inputs.foldl step {}

theorem run_concat (inputs : List Input) (e : Input) :
    run cfg (inputs ++ [e]) = (run cfg inputs).step e := by
  rw [run, List.foldl_append, List.foldl_cons, List.foldl_nil, run]

end State

/-! ### One call of `publish_frame` -/

namespace Session

variable {w : WindowSize} (s : Session w) (m : Native) (len : ℕ) (recovered : Bool)

@[simp] theorem publishAccepted_dedupe :
    (s.publishAccepted m len recovered).dedupe = (s.dedupe.observe (seqOf m)).2 := rfl

@[simp] theorem publishAccepted_observed :
    (s.publishAccepted m len recovered).out.observed = s.out.observed := by
  unfold publishAccepted
  dsimp only
  split <;> split <;> rfl

@[simp] theorem publishAccepted_ring :
    (s.publishAccepted m len recovered).out.ring =
      if (s.dedupe.observe (seqOf m)).1.accepts then s.out.ring ++ [⟨m, len⟩] else s.out.ring := by
  unfold publishAccepted
  dsimp only
  split <;> split <;> rfl

end Session

variable {cfg : Config} {key : Key}

/-- A valid frame of the envelope's identity, as the sender encodes it, reaches the window. -/
theorem publishFrame_bytes (hd : cfg.dedupeEnabled = true) {m : Native}
    (hvalid : validateFrame m.header m.size = true) (hkey : keyOf m = key) (recovered : Bool)
    (reason : ℕ) (s : Session cfg.dedupeWindow) :
    publishFrame cfg key (Wire.bytes m) recovered reason s =
      (true, (s.note m).publishAccepted m m.size recovered) := by
  subst hkey
  unfold publishFrame
  rw [Wire.decode_encode m hvalid]
  simp [hd, keyOf]

/-- **One call.** It fails and changes nothing, or it was handed the bytes of a valid frame
of the envelope's identity. -/
theorem publishFrame_cases (hd : cfg.dedupeEnabled = true) (frame : List Byte) (recovered : Bool)
    (reason : ℕ) (s : Session cfg.dedupeWindow) :
    publishFrame cfg key frame recovered reason s = (false, s) ∨
      ∃ m, validateFrame m.header m.size = true ∧ keyOf m = key ∧
        publishFrame cfg key frame recovered reason s =
          (true, (s.note m).publishAccepted m m.size recovered) := by
  cases hdec : Wire.decode frame { frame := none, nativeLen := 0 } with
  | mk ok out =>
    cases ok with
    | false => exact Or.inl (by rw [publishFrame, hdec])
    | true =>
      obtain ⟨m, rfl, hvalid, rfl, -⟩ := Wire.decode_inv hdec
      by_cases hkey : keyOf m = key
      · exact Or.inr ⟨m, hvalid, hkey, publishFrame_bytes hd hvalid hkey recovered reason s⟩
      · left
        unfold publishFrame
        rw [hdec]
        refine if_pos ?_
        -- `keyOf m` differs from the key in one of its two numbers
        by_contra hboth
        push Not at hboth
        apply hkey
        rw [keyOf, hboth.1, hboth.2]

/-! ### The books of one stream -/

/-- The sequence numbers of one identity, in order. -/
def seqsOf (key : Key) (frames : List Native) : List ℕ :=
  (frames.filter fun m => keyOf m = key).map seqOf

theorem seqsOf_append (key : Key) (frames more : List Native) :
    seqsOf key (frames ++ more) = seqsOf key frames ++ seqsOf key more := by
  rw [seqsOf, List.filter_append, List.map_append]
  rfl

theorem seqsOf_eq_nil {frames : List Native} (h : ∀ m ∈ frames, keyOf m ≠ key) :
    seqsOf key frames = [] := by
  rw [seqsOf, List.map_eq_nil_iff, List.filter_eq_nil_iff]
  exact fun m hm => by simpa using h m hm

theorem seqsOf_singleton {m : Native} (h : keyOf m = key) : seqsOf key [m] = [seqOf m] := by
  rw [seqsOf, List.filter_cons_of_pos (by simpa using h), List.filter_nil, List.map_singleton]

/-- The sequence number is a window's size clear of `2 ^ 64`. -/
def Clear (w : WindowSize) (m : Native) : Prop := seqOf m < Dedupe.wrap - w.val

instance (w : WindowSize) (m : Native) : Decidable (Clear w m) :=
  inferInstanceAs (Decidable (_ < _))

/-- The window stands for the ledger of the frames observed under `key`, and the frames of
that identity on the ring are those the ledger accepted. -/
structure Accounts {w : WindowSize} (key : Key) (W : Window w) (out : Output) : Prop where
  tracks : Tracks W (Ledger.run w (seqsOf key out.observed))
  ring : seqsOf key (out.ring.map Published.frame) =
    (Ledger.run w (seqsOf key out.observed)).accepted

/-- A new stream has nothing on its books. -/
theorem Accounts.fresh {w : WindowSize} {out : Output} (hobs : ∀ m ∈ out.observed, keyOf m ≠ key)
    (hring : ∀ p ∈ out.ring, keyOf p.frame ≠ key) : Accounts key (Window.fresh w) out := by
  have hledger : Ledger.run w (seqsOf key out.observed) = Ledger.empty := by
    rw [seqsOf_eq_nil hobs]
    rfl
  refine ⟨hledger ▸ Tracks.fresh w, ?_⟩
  rw [hledger, seqsOf_eq_nil fun m hm => ?_]
  · rfl
  · obtain ⟨p, hp, rfl⟩ := List.mem_map.mp hm
    exact hring p hp

/-- The books of one stream do not change when frames of other identities are added. -/
theorem Accounts.frame {w : WindowSize} {W : Window w} {out out' : Output}
    (h : Accounts key W out) {seen : List Native} {new : List Published}
    (hobs : out'.observed = out.observed ++ seen) (hring : out'.ring = out.ring ++ new)
    (hseen : ∀ m ∈ seen, keyOf m ≠ key) (hnew : ∀ p ∈ new, keyOf p.frame ≠ key) :
    Accounts key W out' := by
  have hseen' := seqsOf_eq_nil hseen
  have hnew' : seqsOf key (new.map Published.frame) = [] := seqsOf_eq_nil fun m hm => by
    obtain ⟨p, hp, rfl⟩ := List.mem_map.mp hm
    exact hnew p hp
  constructor
  · rw [hobs, seqsOf_append, hseen', List.append_nil]
    exact h.tracks
  · rw [hobs, hring, List.map_append, seqsOf_append, seqsOf_append, hseen', hnew',
      List.append_nil, List.append_nil]
    exact h.ring

/-- **One frame of the stream.** -/
theorem Accounts.publishAccepted {w : WindowSize} {s : Session w}
    (h : Accounts key s.dedupe s.out) {m : Native} (hkey : keyOf m = key)
    (hclear : Clear w m) (len : ℕ) (recovered : Bool) :
    Accounts key ((s.note m).publishAccepted m len recovered).dedupe
      ((s.note m).publishAccepted m len recovered).out := by
  obtain ⟨hiff, -, hnext⟩ := h.tracks.observe (Nat.add_lt_of_lt_sub hclear)
  have hrun : Ledger.run w (seqsOf key (s.note m).out.observed) =
      (Ledger.run w (seqsOf key s.out.observed)).observe w (seqOf m) := by
    change Ledger.run w (seqsOf key (s.out.observed ++ [m])) = _
    rw [seqsOf_append, seqsOf_singleton hkey, Ledger.run_concat]
  constructor
  · rw [Session.publishAccepted_dedupe, Session.publishAccepted_observed, hrun]
    exact hnext
  · rw [Session.publishAccepted_observed, Session.publishAccepted_ring, hrun, Ledger.observe]
    change seqsOf key (List.map Published.frame
      (if (s.dedupe.observe (seqOf m)).1.accepts then s.out.ring ++ [⟨m, len⟩] else s.out.ring)) = _
    dsimp only
    by_cases hadm : (Ledger.run w (seqsOf key s.out.observed)).Admits w (seqOf m)
    · rw [if_pos hadm, if_pos (hiff.mpr hadm), List.map_append, seqsOf_append, h.ring,
        List.map_singleton, seqsOf_singleton hkey]
    · rw [if_neg hadm, if_neg (fun hacc => hadm (hiff.mp hacc)), h.ring]

/-! ### One datagram -/

/-- What the callback can have done to a session since the output was `base`. -/
structure Within {w : WindowSize} (key : Key) (base : Output) (s : Session w) : Prop where
  /-- Only frames of the identity were observed. -/
  observed : ∃ seen, s.out.observed = base.observed ++ seen ∧ ∀ m ∈ seen, keyOf m = key
  /-- Only valid ones, of the observed, were published. -/
  ring : ∃ new, s.out.ring = base.ring ++ new ∧ ∀ p ∈ new, keyOf p.frame = key ∧
    validateFrame p.frame.header p.len = true ∧ p.frame ∈ s.out.observed
  /-- The books of the stream are in order. -/
  accounts : (∀ m ∈ s.out.observed, Clear w m) → Accounts key s.dedupe s.out

theorem Within.publishAccepted {w : WindowSize} {base : Output} {s : Session w}
    (h : Within key base s) {m : Native} (hvalid : validateFrame m.header m.size = true)
    (hkey : keyOf m = key) (recovered : Bool) :
    Within key base ((s.note m).publishAccepted m m.size recovered) := by
  obtain ⟨seen, hobs, hseen⟩ := h.observed
  obtain ⟨new, hring, hnew⟩ := h.ring
  have hgrow : ((s.note m).publishAccepted m m.size recovered).out.observed =
      s.out.observed ++ [m] := Session.publishAccepted_observed ..
  refine ⟨⟨seen ++ [m], ?_, ?_⟩, ?_, ?_⟩
  · rw [hgrow, hobs, List.append_assoc]
  · intro m' hm'
    rcases List.mem_append.mp hm' with hm' | hm'
    · exact hseen m' hm'
    · rw [List.mem_singleton.mp hm', hkey]
  · rw [Session.publishAccepted_ring, hgrow]
    have hold : ∀ p ∈ new, keyOf p.frame = key ∧ validateFrame p.frame.header p.len = true ∧
        p.frame ∈ s.out.observed ++ [m] := fun p hp =>
      ⟨(hnew p hp).1, (hnew p hp).2.1, List.mem_append_left _ (hnew p hp).2.2⟩
    -- published if the window accepts it
    split
    · refine ⟨new ++ [⟨m, m.size⟩], ?_, fun p hp => ?_⟩
      · change s.out.ring ++ _ = _
        rw [hring, List.append_assoc]
      · rcases List.mem_append.mp hp with hp | hp
        · exact hold p hp
        · rw [List.mem_singleton.mp hp]
          exact ⟨hkey, hvalid, List.mem_append_right _ (List.mem_singleton_self m)⟩
    · exact ⟨new, hring, hold⟩
  · intro hclear
    rw [hgrow] at hclear
    have hbefore := h.accounts fun m' hm' => hclear m' (List.mem_append_left _ hm')
    exact hbefore.publishAccepted hkey
      (hclear m (List.mem_append_right _ (List.mem_singleton_self m))) m.size recovered

/-- `publish_frame` keeps `Within`, whatever it is handed. -/
theorem keeps_within (hd : cfg.dedupeEnabled = true) (base : Output) :
    Fec.Keeps (publishFrame cfg key) (Within key base) := by
  intro frame recovered reason s h
  have hcases := @publishFrame_cases cfg key hd frame recovered reason s
  rcases hcases with hfail | ⟨m, hvalid, hkey, hok⟩
  · rw [hfail]
    exact h
  · rw [hok]
    exact h.publishAccepted hvalid hkey recovered

/-- **One payload at a stream.** -/
theorem receiveStream_within (hd : cfg.dedupeEnabled = true) {s : Stream cfg.dedupeWindow}
    {out : Output}
    (h : (∀ m ∈ out.observed, Clear cfg.dedupeWindow m) → Accounts key s.dedupe out)
    (payload : List Byte) (now : ℕ) :
    Within key out ⟨(receiveStream cfg key s out payload now).2.1.dedupe,
      (receiveStream cfg key s out payload now).2.1.lastSeq,
      (receiveStream cfg key s out payload now).2.2⟩ := by
  have hstart : Within key out ⟨s.dedupe, s.lastSeq, out⟩ := by
    refine ⟨⟨[], (List.append_nil _).symm, ?_⟩, ⟨[], (List.append_nil _).symm, ?_⟩, h⟩
    · exact fun m hm => absurd hm List.not_mem_nil
    · exact fun p hp => absurd hp List.not_mem_nil
  exact (keeps_within hd out).receive s.decoder payload now _ hstart

namespace State

variable (R : State cfg)

/-- The input changes no more than counters, the key and decoders. -/
structure Quiet (R R' : State cfg) : Prop where
  out : R'.out = R.out
  keys : R'.streams.keys = R.streams.keys
  find : ∀ key, (R'.streams.find key).map Stream.dedupe = (R.streams.find key).map Stream.dedupe

/-- **One datagram.** It leaves the streams and the output alone, being sent back, refused by its
header or of an identity that is not admitted; or it goes to its stream. -/
theorem datagram_cases (data : List Byte) (truncated : Bool) (now : ℕ) :
    ((R.step (.datagram data truncated now)).streams = R.streams ∧
      (R.step (.datagram data truncated now)).out = R.out ∧
      (cfg.echo = true ∨
        ∀ key payload, (Input.datagram data truncated now).envelope? = some (key, payload) →
          R.streams.get cfg.fecGens key = none)) ∨
    ∃ key payload s streams, cfg.echo = false ∧
      (Input.datagram data truncated now).envelope? = some (key, payload) ∧
      R.streams.get cfg.fecGens key = some (s, streams) ∧
      (R.step (.datagram data truncated now)).streams =
        streams.put key (receiveStream cfg key s R.out payload now).2.1 ∧
      (R.step (.datagram data truncated now)).out =
        (receiveStream cfg key s R.out payload now).2.2 := by
  unfold step
  dsimp only
  split
  · next hecho => exact Or.inl ⟨rfl, rfl, Or.inl hecho⟩
  next hecho =>
  unfold receive
  dsimp only
  split
  · next htrunc =>
    refine Or.inl ⟨rfl, rfl, Or.inr fun key payload henv => ?_⟩
    rw [(Input.envelope?_eq_some henv).1] at htrunc
    cases htrunc
  next htrunc =>
  cases hunwrap : unwrap data R.currentKey with
  | mk payload? key =>
    cases payload? with
    | none =>
      refine Or.inl ⟨rfl, rfl, Or.inr fun key' payload henv => ?_⟩
      -- whether a header is accepted does not depend on the key before
      have hopen := unwrap_eq_some.mp (Input.envelope?_eq_some henv).2
      rw [unwrap_eq_some.mpr hopen] at hunwrap
      cases hunwrap
    | some payload =>
      have henv : (Input.datagram data truncated now).envelope? = some (key, payload) := by
        unfold Input.envelope?
        dsimp only
        rw [if_neg htrunc, unwrap_eq_some.mpr (unwrap_eq_some.mp hunwrap)]
      unfold deliver
      dsimp only
      cases hget : R.streams.get cfg.fecGens key with
      | none =>
        refine Or.inl ⟨rfl, rfl, Or.inr fun key' payload' henv' => ?_⟩
        cases henv.symm.trans henv'
        exact hget
      | some found =>
        exact Or.inr ⟨key, payload, found.1, found.2, Bool.eq_false_of_not_eq_true hecho, henv,
          hget, rfl, rfl⟩

/-- **One input.** -/
theorem step_cases (e : Input) :
    Quiet R (R.step e) ∨
      ∃ key payload now s streams, e = .datagram (Multiplex.wrap key payload) false now ∧
        R.streams.get cfg.fecGens key = some (s, streams) ∧
        (R.step e).streams = streams.put key (receiveStream cfg key s R.out payload now).2.1 ∧
        (R.step e).out = (receiveStream cfg key s R.out payload now).2.2 := by
  cases e with
  | tick now =>
    refine Or.inl ⟨rfl, R.streams.keys_map _, fun key => ?_⟩
    change ((R.streams.map _).find key).map _ = _
    rw [Registry.find_map, Option.map_map]
    rfl
  | datagram data truncated now =>
    rcases R.datagram_cases data truncated now with
      ⟨hstreams, hout, -⟩ | ⟨key, payload, s, streams, -, henv, hget, hstreams, hout⟩
    · exact Or.inl ⟨hout, by rw [hstreams], fun key => by rw [hstreams]⟩
    · obtain ⟨rfl, hunwrap⟩ := Input.envelope?_eq_some henv
      obtain ⟨rfl, -, -⟩ := unwrap_eq_some.mp hunwrap
      exact Or.inr ⟨key, payload, now, s, streams, rfl, hget, hstreams, hout⟩

/-! ### Whole runs -/

/-- What holds at every moment of a run. -/
structure Inv (R : State cfg) : Prop where
  /-- The ring carries valid frames. -/
  valid : ∀ p ∈ R.out.ring, validateFrame p.frame.header p.len = true
  /-- Every one of them was observed. -/
  ring_sub : ∀ p ∈ R.out.ring, p.frame ∈ R.out.observed
  /-- Observed frames are of admitted identities. -/
  admitted : ∀ m ∈ R.out.observed, keyOf m ∈ R.streams.keys
  /-- The books of every stream are in order. -/
  accounts : (∀ m ∈ R.out.observed, Clear cfg.dedupeWindow m) →
    ∀ key s, R.streams.find key = some s → Accounts key s.dedupe R.out

theorem Inv.start : Inv ({} : State cfg) where
  valid := fun p hp => absurd hp List.not_mem_nil
  ring_sub := fun p hp => absurd hp List.not_mem_nil
  admitted := fun m hm => absurd hm List.not_mem_nil
  accounts := fun _ key s hfind => by
    rw [(Registry.find_eq_none _).mpr List.not_mem_nil] at hfind
    cases hfind

variable {R}

/-- The books of a stream just looked up are in order, also if it was admitted only now. -/
theorem Inv.found (h : Inv R) {key : Key} {s : Stream cfg.dedupeWindow}
    {streams : Streams cfg.dedupeWindow cfg.maxStreams}
    (hget : R.streams.get cfg.fecGens key = some (s, streams))
    (hclear : ∀ m ∈ R.out.observed, Clear cfg.dedupeWindow m) :
    Accounts key s.dedupe R.out := by
  obtain ⟨-, -, ⟨hfind, -⟩ | ⟨hnew, rfl, -⟩⟩ := Registry.getOrAdd_cases hget
  · exact h.accounts hclear key s hfind
  · have hnotin := R.streams.find_eq_none.mp hnew
    refine Accounts.fresh (fun m hm hkey => hnotin ?_) (fun p hp hkey => hnotin ?_)
    · exact hkey ▸ h.admitted m hm
    · exact hkey ▸ h.admitted _ (h.ring_sub p hp)

theorem Inv.step (hd : cfg.dedupeEnabled = true) (h : Inv R) (e : Input) : Inv (R.step e) := by
  rcases R.step_cases e with hquiet | ⟨key, payload, now, s, streams, -, hget, hstreams, hout⟩
  · refine ⟨?_, ?_, ?_, ?_⟩
    · rw [hquiet.out]; exact h.valid
    · rw [hquiet.out]; exact h.ring_sub
    · rw [hquiet.out, hquiet.keys]; exact h.admitted
    · intro hclear key s' hfind
      rw [hquiet.out] at hclear ⊢
      have hmap := hquiet.find key
      rw [hfind, Option.map_some] at hmap
      obtain ⟨s, hs, hdedupe⟩ := Option.map_eq_some_iff.mp hmap.symm
      rw [← hdedupe]
      exact h.accounts hclear key s hs
  · have hwithin := receiveStream_within hd (h.found hget) payload now
    obtain ⟨seen, hobs, hseen⟩ := hwithin.observed
    obtain ⟨new, hring, hnew⟩ := hwithin.ring
    obtain ⟨hfind, hkeys, hcase⟩ := Registry.getOrAdd_cases hget
    have hmem : key ∈ streams.keys := streams.mem_keys_of_find hfind
    rw [← hout] at hobs hring hnew
    refine ⟨?_, ?_, ?_, ?_⟩
    · intro p hp
      rw [hring] at hp
      rcases List.mem_append.mp hp with hp | hp
      · exact h.valid p hp
      · exact (hnew p hp).2.1
    · intro p hp
      rw [hring] at hp
      rcases List.mem_append.mp hp with hp | hp
      · rw [hobs]
        exact List.mem_append_left _ (h.ring_sub p hp)
      · exact (hnew p hp).2.2
    · intro m hm
      rw [hobs] at hm
      rw [hstreams, Registry.keys_put]
      rcases List.mem_append.mp hm with hm | hm
      · exact hkeys.subset (h.admitted m hm)
      · exact hseen m hm ▸ hmem
    · intro hclear key' s' hs'
      rw [hstreams] at hs'
      by_cases hkey : key' = key
      · subst hkey
        rw [Registry.find_put _ hmem] at hs'
        rw [← Option.some.inj hs', hout]
        exact hwithin.accounts (hout ▸ hclear)
      · -- another stream: its entry and its frames are as they were
        rw [Registry.find_put_ne _ hkey] at hs'
        have hold : R.streams.find key' = some s' := by
          rcases hcase with ⟨-, rfl⟩ | ⟨-, -, hother⟩
          · exact hs'
          · rw [← hother key' hkey]; exact hs'
        have hbefore : ∀ m ∈ R.out.observed, Clear cfg.dedupeWindow m := fun m hm =>
          hclear m (hobs ▸ List.mem_append_left _ hm)
        exact (h.accounts hbefore key' s' hold).frame hobs hring
          (fun m hm hm' => hkey (hm'.symm.trans (hseen m hm)))
          (fun p hp hp' => hkey (hp'.symm.trans (hnew p hp).1))

/-- **Along a run.** -/
theorem Inv.run (hd : cfg.dedupeEnabled = true) (inputs : List Input) : Inv (run cfg inputs) := by
  induction inputs using List.reverseRecOn with
  | nil => exact Inv.start
  | append_singleton inputs e ih =>
    rw [run_concat]
    exact ih.step hd e

/-- Identities are never dropped. -/
theorem keys_step (e : Input) : R.streams.keys <+: (R.step e).streams.keys := by
  rcases R.step_cases e with hquiet | ⟨key, payload, now, s, streams, -, hget, hstreams, -⟩
  · rw [hquiet.keys]
  · rw [hstreams, Registry.keys_put]
    exact (Registry.getOrAdd_cases hget).2.1

theorem keys_run (pre post : List Input) :
    (State.run cfg pre).streams.keys <+: (State.run cfg (pre ++ post)).streams.keys := by
  induction post using List.reverseRecOn with
  | nil => rw [List.append_nil]
  | append_singleton post e ih =>
    rw [← List.append_assoc, run_concat]
    exact ih.trans (keys_step e)

/-- What one input adds to the ring carries the identity of its envelope. -/
theorem ring_step (hd : cfg.dedupeEnabled = true) (h : Inv R) (e : Input) :
    ∃ new, (R.step e).out.ring = R.out.ring ++ new ∧
      (new = [] ∨ ∃ key payload now, e = .datagram (Multiplex.wrap key payload) false now ∧
        ∀ p ∈ new, keyOf p.frame = key) := by
  rcases R.step_cases e with hquiet | ⟨key, payload, now, s, streams, he, hget, -, hout⟩
  · exact ⟨[], by rw [hquiet.out, List.append_nil], Or.inl rfl⟩
  · obtain ⟨new, hring, hnew⟩ := (receiveStream_within hd (h.found hget) payload now).ring
    rw [← hout] at hring
    exact ⟨new, hring, Or.inr ⟨key, payload, now, he, fun p hp => (hnew p hp).1⟩⟩

end State

/-- If no identity has a sequence number twice, no pair of the two occurs twice. -/
theorem nodup_of_seqsOf {frames : List Native} (h : ∀ key, (seqsOf key frames).Nodup) :
    (frames.map fun m => (keyOf m, seqOf m)).Nodup := by
  rw [List.nodup_iff_sublist]
  rintro ⟨key, seq⟩ hsub
  have hfilter := (hsub.filter fun q => decide (q.1 = key)).map Prod.snd
  rw [List.filter_map, List.map_map] at hfilter
  refine List.nodup_iff_sublist.mp (h key) seq ?_
  simpa [seqsOf, Function.comp_def] using hfilter

/-- **Output safety.** With the window enabled, for any inputs in which no observed frame has a
sequence number within a window's size of `2 ^ 64`: every frame on the ring is valid at the
length it was published with; what an input adds to the ring carries the identity of that
input's envelope; no two frames on the ring have the same identity and sequence number; and
at every moment the identities are at most the limit, with none of them ever dropped. -/
theorem output_safety (cfg : Config) (hd : cfg.dedupeEnabled = true) (inputs : List Input)
    (hclear : ∀ m ∈ (State.run cfg inputs).out.observed, Clear cfg.dedupeWindow m) :
    (∀ p ∈ (State.run cfg inputs).out.ring, validateFrame p.frame.header p.len = true) ∧
    (∀ pre e post, inputs = pre ++ e :: post →
      ∃ new, (State.run cfg (pre ++ [e])).out.ring = (State.run cfg pre).out.ring ++ new ∧
        (new = [] ∨ ∃ key payload now, e = .datagram (Multiplex.wrap key payload) false now ∧
          ∀ p ∈ new, p.frame.header.streamId = key.stream ∧
            p.frame.header.streamEpoch = key.epoch)) ∧
    ((State.run cfg inputs).out.ring.map fun p =>
      (p.frame.header.streamId, p.frame.header.streamEpoch, p.frame.header.seqId)).Nodup ∧
    (∀ pre post, inputs = pre ++ post →
      (State.run cfg pre).streams.size ≤ cfg.maxStreams ∧
      (State.run cfg pre).streams.keys <+: (State.run cfg inputs).streams.keys) := by
  have hinv := State.Inv.run hd inputs
  refine ⟨hinv.valid, ?_, ?_, ?_⟩
  · rintro pre e post -
    obtain ⟨new, hring, hnew⟩ := State.ring_step hd (State.Inv.run hd pre) e
    refine ⟨new, by rw [State.run_concat]; exact hring, hnew.imp_right ?_⟩
    rintro ⟨key, payload, now, he, hkey⟩
    refine ⟨key, payload, now, he, fun p hp => ?_⟩
    rw [← hkey p hp]
    exact ⟨rfl, rfl⟩
  · -- per identity the numbers on the ring are those its ledger accepted
    have hbooks : ∀ key, (seqsOf key
        ((State.run cfg inputs).out.ring.map Published.frame)).Nodup := by
      intro key
      cases hfind : (State.run cfg inputs).streams.find key with
      | none =>
        have hnotin := (Registry.find_eq_none _).mp hfind
        rw [seqsOf_eq_nil fun m hm hkey => hnotin ?_]
        · exact List.nodup_nil
        · obtain ⟨p, hp, rfl⟩ := List.mem_map.mp hm
          exact hkey ▸ hinv.admitted _ (hinv.ring_sub p hp)
      | some s =>
        rw [(hinv.accounts hclear key s hfind).ring]
        exact Ledger.run_nodup _
    have hpairs := nodup_of_seqsOf hbooks
    rw [List.map_map] at hpairs
    refine List.Nodup.of_map (fun t => ((⟨t.1, t.2.1⟩ : Key), t.2.2.toNat)) ?_
    rw [List.map_map]
    exact hpairs
  · rintro pre post rfl
    exact ⟨(State.run cfg pre).streams.size_le, State.keys_run pre post⟩

/-- The default configuration, with the smallest window. -/
def smallConfig : Config := { dedupeWindow := Window.sixtyFour, window_le := by decide }

/-- A frame that comes twice under its own identity and once under another is on the ring
once. -/
theorem replay_published_once :
    let frame := Wire.bytes (.trade Wire.goldenTrade)
    let R := State.run smallConfig
      [.datagram (Multiplex.wrap ⟨11, 12⟩ frame) false 5,
        .datagram (Multiplex.wrap ⟨11, 12⟩ frame) false 6,
        .tick 7, .datagram (Multiplex.wrap ⟨11, 13⟩ frame) false 8]
    R.out.ring.length = 1 ∧ R.rejected = 1 ∧ R.streams.size = 2 ∧
      ∀ p ∈ R.out.ring, validateFrame p.frame.header p.len = true := by
  refine ⟨by decide +kernel, by decide +kernel, by decide +kernel, ?_⟩
  exact (output_safety smallConfig rfl _ (by decide +kernel)).1

end Receiver
end PulseFanout
