import PulseFanout.Receiver.EndToEnd
import PulseFanout.Receiver.Isolation

/-!
# What a receiver makes of the shards of one sender

`Schedule` speaks of a single stream that gets shards and expires slots, and of nothing else. A
receiver gets datagrams of many streams. `arrival` reads an input as an event of a schedule, and
what the receiver shows to the identity (`Solo`) is what the stream makes of these events
(`solo_replays`), if all that comes under the identity are shards of `sent`.

What a schedule puts on the ring is shown once more here, in the form in which it is put together
with the sender (`Schedule.ring_perm`).
-/

namespace PulseFanout

/-! ### Expiry of an empty decoder -/

namespace Fec

/-- If no slot has expired, nothing changes. -/
theorem Decoder.expire_of_idle {d : Decoder} {now ttl : ℕ}
    (h : ∀ g ∈ d.slots, Decoder.expired now ttl g = false) : d.expire now ttl = d := by
  obtain ⟨gens, slots, stats, hpos, hlen⟩ := d
  replace h : ∀ g ∈ slots, Decoder.expired now ttl g = false := h
  have hslots : slots.map (fun g => if Decoder.expired now ttl g then {} else g) = slots := by
    refine (List.map_congr_left fun g hg => ?_).trans (List.map_id _)
    rw [h g hg]
    rfl
  have hstats : slots.foldl
      (fun st g => if Decoder.expired now ttl g then (finalize g st).2 else st) stats = stats := by
    clear hslots hlen
    induction slots with
    | nil => rfl
    | cons g slots ih =>
      rw [List.foldl_cons, h g List.mem_cons_self, if_neg Bool.false_ne_true]
      exact ih fun g' hg' => h g' (List.mem_cons_of_mem _ hg')
  simp only [Decoder.expire, Decoder.mk.injEq]
  exact ⟨trivial, hslots, hstats⟩

/-- There is nothing to expire in a new decoder. -/
theorem Decoder.expire_new (gens now ttl : ℕ) :
    (Decoder.new gens).expire now ttl = Decoder.new gens := by
  refine Decoder.expire_of_idle fun g hg => ?_
  rw [Decoder.new] at hg
  rw [List.eq_of_mem_replicate hg]
  rfl

end Fec

namespace Receiver

open Framework Msg Multiplex Dedupe Fec

variable {cfg : Config} {key : Key} {k p : ℕ}

theorem Admitted.of_append {pre post : List Input} (h : Admitted cfg key (pre ++ post)) :
    Admitted cfg key pre := by
  induction post using List.reverseRecOn with
  | nil => rwa [List.append_nil] at h
  | append_singleton post e ih =>
    rw [← List.append_assoc] at h
    exact ih h.of_concat

/-! ### Inputs as events -/

/-- The place of a shard that is sent under the identity as `data`. -/
def placeOf (key : Key) (sent : List (Sent k p)) (data : List Byte) :
    Option (Σ g : Fin sent.length, Fin (sent.get g).built.shards.length) :=
  (List.finRange sent.length).findSome? fun g =>
    ((List.finRange (sent.get g).built.shards.length).find? fun x : Fin _ =>
      wrap key ((sent.get g).built.shards.getD x.val []) = data).map fun x => ⟨g, x⟩

/-- What an input is to the identity. -/
def arrival (key : Key) (sent : List (Sent k p)) : Input → Option (Arrival sent)
  | .tick now => some (.expire now Decoder.defaultTtl)
  | .datagram data truncated now =>
    if (Input.datagram data truncated now).key? = some key then
      (placeOf key sent data).map fun place => .shard place.1 place.2 now
    else none

/-- The events among the inputs. -/
def arrivals (key : Key) (sent : List (Sent k p)) (inputs : List Input) : List (Arrival sent) :=
  inputs.filterMap (arrival key sent)

/-- All that comes under the identity are shards of `sent`. -/
def Genuine (key : Key) (sent : List (Sent k p)) (inputs : List Input) : Prop :=
  ∀ data truncated now, Input.datagram data truncated now ∈ inputs →
    (Input.datagram data truncated now).key? = some key →
    ∃ (g : Fin sent.length) (x : Fin (sent.get g).built.shards.length),
      data = wrap key ((sent.get g).built.shards.getD x [])

section Events

variable {sent : List (Sent k p)}

theorem placeOf_eq_some {data : List Byte} {g : Fin sent.length}
    {x : Fin (sent.get g).built.shards.length} (h : placeOf key sent data = some ⟨g, x⟩) :
    data = wrap key ((sent.get g).built.shards.getD x []) := by
  obtain ⟨g', -, hg'⟩ := List.exists_of_findSome?_eq_some h
  obtain ⟨x', hx', heq⟩ := Option.map_eq_some_iff.mp hg'
  cases heq
  have hdata := List.find?_some hx'
  exact (of_decide_eq_true hdata).symm

theorem exists_placeOf {data : List Byte} {g : Fin sent.length}
    {x : Fin (sent.get g).built.shards.length}
    (h : data = wrap key ((sent.get g).built.shards.getD x [])) :
    ∃ place, placeOf key sent data = some place := by
  refine Option.isSome_iff_exists.mp (List.findSome?_isSome_iff.mpr ⟨g, List.mem_finRange g, ?_⟩)
  rw [Option.isSome_map, List.find?_isSome]
  exact ⟨x, List.mem_finRange x, decide_eq_true h.symm⟩

theorem arrival_eq_shard {e : Input} {g : Fin sent.length}
    {x : Fin (sent.get g).built.shards.length} {now : ℕ}
    (h : arrival key sent e = some (.shard g x now)) :
    e = .datagram (wrap key ((sent.get g).built.shards.getD x [])) false now := by
  cases e with
  | tick now => cases h
  | datagram data truncated now' =>
    unfold arrival at h
    dsimp only at h
    split at h
    · next hkey =>
      obtain ⟨⟨g', x'⟩, hplace, heq⟩ := Option.map_eq_some_iff.mp h
      cases heq
      obtain ⟨⟨key', payload⟩, henv, -⟩ := Option.map_eq_some_iff.mp hkey
      rw [(Input.envelope?_eq_some henv).1, placeOf_eq_some hplace]
    · cases h

/-- A datagram of the identity that is a shard is an event. -/
theorem exists_arrival {data : List Byte} {truncated : Bool} {now : ℕ} {g : Fin sent.length}
    {x : Fin (sent.get g).built.shards.length}
    (hkey : (Input.datagram data truncated now).key? = some key)
    (hdata : data = wrap key ((sent.get g).built.shards.getD x [])) :
    ∃ g' x', arrival key sent (.datagram data truncated now) = some (.shard g' x' now) ∧
      data = wrap key ((sent.get g').built.shards.getD x' []) := by
  obtain ⟨⟨g', x'⟩, hplace⟩ := exists_placeOf hdata
  refine ⟨g', x', ?_, placeOf_eq_some hplace⟩
  rw [arrival, if_pos hkey, hplace]
  rfl

theorem arrival_of_other {e : Input} (h : e.concerns key = false) : arrival key sent e = none := by
  cases e with
  | tick now => cases h
  | datagram data truncated now => exact if_neg (of_decide_eq_false h)

theorem arrivals_concat (inputs : List Input) (e : Input) :
    arrivals key sent (inputs ++ [e]) =
      arrivals key sent inputs ++ (arrival key sent e).toList := by
  rw [arrivals, List.filterMap_append, ← arrivals]
  cases h : arrival key sent e with
  | none => rw [List.filterMap_cons_none h]; rfl
  | some event => rw [List.filterMap_cons_some h]; rfl

/-- The place of a datagram among the events: what comes before it and what after. -/
theorem arrivals_split {inputs : List Input} {pre post : List (Arrival sent)} {event : Arrival sent}
    (h : arrivals key sent inputs = pre ++ event :: post) :
    ∃ before e after, inputs = before ++ e :: after ∧ arrivals key sent before = pre ∧
      arrival key sent e = some event := by
  obtain ⟨before, rest, rfl, hbefore, hrest⟩ := List.filterMap_eq_append_iff.mp h
  obtain ⟨skipped, e, after, rfl, hskipped, he, -⟩ := List.filterMap_eq_cons_iff.mp hrest
  refine ⟨before ++ skipped, e, after, (List.append_assoc ..).symm, ?_, he⟩
  rw [arrivals, List.filterMap_append, hbefore, List.filterMap_eq_nil_iff.mpr hskipped,
    List.append_nil]

/-- The stream a receiver shows is the one that got the events. -/
structure Replays (key : Key) (T : Solo cfg) (R : Stream cfg.dedupeWindow × Output) : Prop where
  stream : T.stream.getD (Stream.new cfg.fecGens) = R.1
  ring : framesOf key R.2.ring = T.ring

/-- A payload has the same effect on both. -/
theorem Replays.take {T : Solo cfg} {R : Stream cfg.dedupeWindow × Output} (h : Replays key T R)
    (payload : List Byte) (now : ℕ) :
    Replays key (T.take key payload now) (receiveStream cfg key R.1 R.2 payload now).2 := by
  have hsame : SameSession key (⟨R.1.dedupe, R.1.lastSeq, R.2⟩ : Session cfg.dedupeWindow)
      ⟨R.1.dedupe, R.1.lastSeq, { ring := T.ring }⟩ := ⟨rfl, rfl, h.ring⟩
  obtain ⟨-, hdecoder, hsession⟩ := (publishFrame_answers cfg key).receive
    (Decoder.Alike.refl True True R.1.decoder) payload now hsame
  refine ⟨?_, ?_⟩
  · unfold Solo.take
    rw [h.stream]
    dsimp only [receiveStream, Option.getD_some]
    rw [hdecoder.eq_of_full, hsession.dedupe, hsession.lastSeq]
  · unfold Solo.take
    rw [h.stream]
    exact hsession.ring

theorem Replays.tick {T : Solo cfg} {R : Stream cfg.dedupeWindow × Output} (h : Replays key T R)
    (now : ℕ) :
    Replays key (T.step key (.tick now))
      ({ R.1 with decoder := R.1.decoder.expire now Decoder.defaultTtl }, R.2) := by
  refine ⟨?_, h.ring⟩
  rw [← h.stream, Solo.step]
  cases hstream : T.stream with
  | none =>
    -- a stream that is not there yet has nothing that could expire
    dsimp only [Option.map_none, Option.getD_none, Stream.new]
    rw [Decoder.expire_new]
  | some s => rfl

/-- **The receiver replays the events.** -/
theorem solo_replays (hecho : cfg.echo = false) {inputs : List Input}
    (hgenuine : Genuine key sent inputs) :
    Replays key (Solo.run cfg key inputs)
      (streamRun cfg key sent (arrivals key sent inputs)) := by
  induction inputs using List.reverseRecOn with
  | nil => exact ⟨rfl, rfl⟩
  | append_singleton inputs e ih =>
    have hbefore := ih fun data truncated now hmem =>
      hgenuine data truncated now (List.mem_append_left _ hmem)
    rw [Solo.run_concat, arrivals_concat]
    cases e with
    | tick now =>
      rw [arrival, Option.toList_some, streamRun_concat]
      exact hbefore.tick now
    | datagram data truncated now =>
      by_cases hkey : (Input.datagram data truncated now).key? = some key
      · obtain ⟨g, x, hdata⟩ := hgenuine data truncated now
          (List.mem_append_right _ (List.mem_singleton_self _)) hkey
        obtain ⟨g', x', harrival, hdata'⟩ := exists_arrival hkey hdata
        obtain ⟨⟨key', payload⟩, henv, rfl⟩ := Option.map_eq_some_iff.mp hkey
        -- the payload is the shard
        have hpayload : payload = (sent.get g').built.shards.getD x' [] := by
          have hopen := (unwrap_eq_some.mp (Input.envelope?_eq_some henv).2).1
          exact List.append_cancel_left (hopen.symm.trans hdata')
        rw [harrival, Option.toList_some, streamRun_concat, Solo.step, hecho, henv,
          if_neg Bool.false_ne_true]
        dsimp only
        rw [if_pos rfl, hpayload]
        exact hbefore.take _ now
      · have hother : (Input.datagram data truncated now).concerns key = false :=
          decide_eq_false hkey
        rw [arrival_of_other hother, Option.toList_none, List.append_nil, Solo.step_other _ hother]
        exact hbefore

end Events

/-! ### The ring after a schedule -/

/-- `publish_frame` adds to what was observed. -/
theorem keeps_observed (hd : cfg.dedupeEnabled = true) (base : List Native) :
    Fec.Keeps (publishFrame cfg key) fun s => base <+: s.out.observed := by
  intro frame recovered reason s h
  have hcases := @publishFrame_cases cfg key hd frame recovered reason s
  rcases hcases with hfail | ⟨m, -, -, hok⟩
  · rw [hfail]
    exact h
  · rw [hok]
    dsimp only
    rw [Session.publishAccepted_observed]
    exact h.trans (List.prefix_append ..)

/-- What was observed stays observed. -/
theorem streamRun_observed (hd : cfg.dedupeEnabled = true) {sent : List (Sent k p)}
    (pre post : List (Arrival sent)) :
    (streamRun cfg key sent pre).2.observed <+:
      (streamRun cfg key sent (pre ++ post)).2.observed := by
  induction post using List.reverseRecOn with
  | nil => rw [List.append_nil]
  | append_singleton post e ih =>
    rw [← List.append_assoc, streamRun_concat]
    cases e with
    | shard g x now => exact (keeps_observed hd _).receive _ _ now _ ih
    | expire now ttl => exact ih

namespace Schedule

variable (S : Schedule cfg key k p)

/-- The frames on the ring are those from the first one observed onwards. -/
theorem ring_perm (hd : cfg.dedupeEnabled = true) :
    ∃ j ≤ S.messages.length - 1,
      (streamRun cfg key S.sent S.events).2.observed.head? = S.messages[j]? ∧
      ((streamRun cfg key S.sent S.events).2.ring.map Published.frame).Perm
        (S.messages.drop j) ∧
      framesOf key (streamRun cfg key S.sent S.events).2.ring =
        (streamRun cfg key S.sent S.events).2.ring := by
  obtain ⟨hobs, hwithin⟩ := S.observed_iff hd
  obtain ⟨new, hring, hnew⟩ := hwithin.ring
  generalize (streamRun cfg key S.sent S.events).2 = out at hobs hwithin hring hnew ⊢
  replace hring : out.ring = new := hring
  subst hring
  have hkeys : ∀ m ∈ out.observed, keyOf m = key := fun m hm => (S.valid m ((hobs m).mp hm)).2
  have hsub : ∀ m ∈ out.ring.map Published.frame, m ∈ out.observed := by
    intro m hm
    obtain ⟨q, hq, rfl⟩ := List.mem_map.mp hm
    exact (hnew q hq).2.2
  have hclear : ∀ m ∈ out.observed, Clear cfg.dedupeWindow m := by
    intro m hm
    obtain ⟨i, hi, rfl⟩ := List.getElem_of_mem ((hobs m).mp hm)
    have hfits := S.fits
    have hwindow := cfg.window_le
    rw [Clear, seqOf_getElem S.seqs hi, Dedupe.wrap]
    omega
  have hone : ∀ frames : List Native, (∀ m ∈ frames, keyOf m = key) →
      seqsOf key frames = frames.map seqOf := by
    intro frames hframes
    rw [seqsOf, List.filter_eq_self.mpr fun m hm => decide_eq_true (hframes m hm)]
  have hseqs := (hwithin.accounts hclear).ring
  rw [hone _ fun m hm => hkeys m (hsub m hm), hone _ hkeys] at hseqs
  obtain ⟨j, hj, hhead, hperm⟩ := accepted_perm S.seqs S.fits hobs hsub hseqs
  refine ⟨j, hj, hhead, hperm, ?_⟩
  exact List.filter_eq_self.mpr fun q hq => decide_eq_true (hnew q hq).1

/-- The first frame of the first generation is the encoding of the first message. -/
theorem head_messages {g : Fin S.sent.length} (hg : g.val = 0) {m : Native} (hm : m ∈ S.messages)
    (hframe : (S.sent.get g).frames.head? = some (Wire.bytes m)) : S.messages.head? = some m := by
  have hframes : (S.sent.map Sent.frames).flatten.head? = some (Wire.bytes m) := by
    have hsent : S.sent.head? = some (S.sent.get g) := by
      rw [List.head?_eq_getElem?, ← hg]
      exact List.getElem?_eq_getElem g.isLt
    obtain ⟨rest, hrest⟩ := List.head?_eq_some_iff.mp hsent
    rw [hrest, List.map_cons, List.flatten_cons, List.head?_append, hframe]
    rfl
  rw [S.split, List.head?_map] at hframes
  obtain ⟨m', hm', hbytes⟩ := Option.map_eq_some_iff.mp hframes
  rw [hm', bytes_inj (S.valid m' (List.mem_of_mem_head? hm')).1 (S.valid m hm).1 hbytes]

/-- If the first shard that comes is the first of all, the first message is observed first. -/
theorem first_observed (hd : cfg.dedupeEnabled = true) {pre post : List (Arrival S.sent)}
    {g : Fin S.sent.length} {x : Fin (S.sent.get g).built.shards.length} {now : ℕ}
    (hsplit : S.events = pre ++ .shard g x now :: post) (hpre : ∀ g', delivered pre g' = [])
    (hg : g.val = 0) (hx : x.val = 0) :
    (streamRun cfg key S.sent S.events).2.observed.head? = S.messages.head? := by
  obtain ⟨origin, hids, horigin⟩ := Sent.exists_origins S.ids S.reasons
  obtain ⟨msg, hmsg, hmem, -⟩ := S.exists_names fun g => (horigin g).2.1
  have hafter := S.delivering hd hids (fun g => (horigin g).2.2.1)
    (fun g => (horigin g).2.2.2.2) (fun g => (horigin g).2.2.2.1) hmsg
    (pre ++ [.shard g x now]) post (by rw [List.append_assoc]; exact hsplit)
  -- the only frame at hand is number zero of the generation
  have hheld : (stageAt origin (pre ++ [.shard g x now]) g).2.held = {0} := by
    have halong := Stage.Along.run (origin g).n (origin g).reason.toNat
      (delivered (pre ++ [.shard g x now]) g)
    have hpos := (origin g).n_pos
    rw [← stageAt, delivered_shard, hpre g, hx, List.nil_append] at halong
    cases hdone : (stageAt origin (pre ++ [.shard g x now]) g).2.done with
    | false =>
      rw [halong.held_eq hdone, Stage.dataOf]
      simp [hpos]
    | true =>
      obtain ⟨hrange, hcard⟩ := halong.complete hdone
      have hsingle : (origin g).n = 1 := le_antisymm hcard hpos
      rw [hrange, hsingle]
      rfl
  have hoffered := (Stage.Along.run (origin g).n (origin g).reason.toNat
    (delivered (pre ++ [.shard g x now]) g)).offered
  rw [← stageAt, hheld] at hoffered
  have honly : ∀ m ∈ (streamRun cfg key S.sent (pre ++ [.shard g x now])).2.observed,
      m = msg g 0 := by
    intro m hm
    obtain ⟨g', o, ho, rfl⟩ := (hafter.observed m).mp hm
    by_cases hne : g = g'
    · subst hne
      rw [Finset.mem_singleton.mp ((hoffered o.index).mp ⟨o, ho, rfl⟩)]
    · rw [stageAt_shard_ne pre hne, stageAt, hpre g'] at ho
      exact absurd ho List.not_mem_nil
  obtain ⟨o, ho, hzero⟩ := (hoffered 0).mpr (Finset.mem_singleton_self 0)
  have hseen : msg g 0 ∈ (streamRun cfg key S.sent (pre ++ [.shard g x now])).2.observed :=
    (hafter.observed _).mpr ⟨g, o, ho, by rw [hzero]⟩
  have hpos := (origin g).n_pos
  have hhead : S.messages.head? = some (msg g 0) := by
    refine S.head_messages hg (hmem g 0 hpos) ?_
    rw [← (horigin g).2.1, (hmsg g 0 hpos).2.2, Origin.frame, List.head?_eq_getElem?,
      List.getD_eq_getElem _ _ hpos]
    exact List.getElem?_eq_getElem hpos
  have hgrown : (streamRun cfg key S.sent (pre ++ [.shard g x now])).2.observed <+:
      (streamRun cfg key S.sent (pre ++ [.shard g x now] ++ post)).2.observed :=
    streamRun_observed hd _ post
  rw [List.append_assoc, List.singleton_append, ← hsplit] at hgrown
  obtain ⟨more, hmore⟩ := hgrown
  rw [hhead, ← hmore]
  cases hobs : (streamRun cfg key S.sent (pre ++ [.shard g x now])).2.observed with
  | nil =>
    rw [hobs] at hseen
    exact absurd hseen List.not_mem_nil
  | cons m rest =>
    rw [hobs] at honly
    rw [List.cons_append, List.head?_cons, honly m List.mem_cons_self]

end Schedule

end Receiver
end PulseFanout
