import PulseFanout.Fec.Erasure
import PulseFanout.Receiver.Loop

/-!
# From the sender's encoder to the output ring

A stream of messages numbered from one is split into generations, closed by the sender's
encoder, and the shards reach the receiver in any order, any number of times and with losses
the parity makes good, while every generation keeps its decoder slot from its first shard to
its last (`Schedule`).

The window takes the number of the first frame it is shown as its base and calls everything
below too old. So the frames that end up on the ring are those from the first one obtained
onwards, each once (`delivered_from_first`): all of them if the first one obtained is number
one, and otherwise not (`second_frame_first`).

The proof follows the schedule. `Delivering` says, after some of the events: the slot of a
generation, if it holds it, is at the stage its shards lead to; the frames observed are those
the stages offered; and the books of the stream are in order. What then remains is a fact
about ledgers (`Ledger.mem_run_accepted`).
-/

namespace PulseFanout
namespace Receiver

open Framework Msg Multiplex Dedupe Fec

/-! ### Schedules -/

variable {k p : ℕ}

/-- The shards of generation `g` among the events. -/
def delivered {sent : List (Sent k p)} (events : List (Arrival sent)) (g : Fin sent.length) :
    List ℕ :=
  events.filterMap fun
    | .shard g' x _ => if g' = g then some x.val else none
    | .expire _ _ => none

/-- One event at the stream `key`. -/
def streamStep (cfg : Config) (key : Key) (sent : List (Sent k p))
    (R : Stream cfg.dedupeWindow × Output) :
    Arrival sent → Stream cfg.dedupeWindow × Output
  | .shard g x now => (receiveStream cfg key R.1 R.2 ((sent.get g).built.shards.getD x []) now).2
  | .expire now ttl => ({ R.1 with decoder := R.1.decoder.expire now ttl }, R.2)

/-- A new stream after a sequence of events. -/
def streamRun (cfg : Config) (key : Key) (sent : List (Sent k p)) (events : List (Arrival sent)) :
    Stream cfg.dedupeWindow × Output :=
  events.foldl (streamStep cfg key sent) (Stream.new cfg.fecGens, {})

/-- Messages, the generations they were sent in, and what of them arrives. -/
structure Schedule (cfg : Config) (key : Key) (k p : ℕ) where
  messages : List Native
  sent : List (Sent k p)
  events : List (Arrival sent)
  /-- The messages are valid and of the stream. -/
  valid : ∀ m ∈ messages, validateFrame m.header m.size = true ∧ keyOf m = key
  /-- They are numbered from one. -/
  seqs : messages.map seqOf = List.range' 1 messages.length
  /-- The generations are consecutive pieces of their encodings. -/
  split : (sent.map Sent.frames).flatten = messages.map Wire.bytes
  /-- Generations are told apart by their ids. -/
  ids : (sent.map Sent.genId).Nodup
  /-- The sender closes them for the reasons zero to two. -/
  reasons : ∀ s ∈ sent, s.reason.toNat ≤ 2
  /-- No more messages than the window has numbers. -/
  fits : messages.length ≤ cfg.dedupeWindow.val
  /-- A generation loses at most `p` shards. -/
  loss : ∀ g, (sent.get g).built.shards.length ≤ (delivered events g).toFinset.card + p
  /-- From its first shard to its last a generation is neither evicted nor expired. -/
  kept : ∀ pre g x now post, events = pre ++ .shard g x now :: post → delivered pre g ≠ [] →
    (streamRun cfg key sent pre).1.decoder.Holds (sent.get g).genId

/-! ### Following the schedule -/

section Follow

variable {cfg : Config} {key : Key} {sent : List (Sent k p)}

theorem delivered_shard (pre : List (Arrival sent)) (g : Fin sent.length)
    (x : Fin (sent.get g).built.shards.length) (now : ℕ) :
    delivered (pre ++ [.shard g x now]) g = delivered pre g ++ [x.val] := by
  simp [delivered]

theorem delivered_shard_ne (pre : List (Arrival sent)) {g g' : Fin sent.length} (hne : g ≠ g')
    (x : Fin (sent.get g).built.shards.length) (now : ℕ) :
    delivered (pre ++ [.shard g x now]) g' = delivered pre g' := by
  simp [delivered, hne]

theorem delivered_expire (pre : List (Arrival sent)) (now ttl : ℕ) :
    delivered (pre ++ [.expire now ttl]) = delivered pre := by
  funext g
  simp [delivered]

theorem streamRun_concat (pre : List (Arrival sent)) (e : Arrival sent) :
    streamRun cfg key sent (pre ++ [e]) =
      streamStep cfg key sent (streamRun cfg key sent pre) e := by
  rw [streamRun, List.foldl_append, List.foldl_cons, List.foldl_nil, streamRun]

/-- The frames of `O` are the encodings of the messages `msg`, all valid and of the stream. -/
def Names (key : Key) (O : Origin) (msg : ℕ → Native) : Prop :=
  ∀ i < O.n, validateFrame (msg i).header (msg i).size = true ∧ keyOf (msg i) = key ∧
    Wire.bytes (msg i) = O.frame i

theorem takes_within (hd : cfg.dedupeEnabled = true) {O : Origin} {msg : ℕ → Native}
    (hmsg : Names key O msg) (base : Output) :
    Sim.Takes (publishFrame cfg key) O (Within key base) := by
  intro i hi recovered reason s hs
  obtain ⟨hvalid, hkey, hbytes⟩ := hmsg i hi
  refine ⟨?_, keeps_within hd base _ recovered reason s hs⟩
  rw [← hbytes, publishFrame_bytes hd hvalid hkey]

/-- Offering frames of `O` observes their messages. -/
theorem offerAll_observed (hd : cfg.dedupeEnabled = true) {O : Origin} {msg : ℕ → Native}
    (hmsg : Names key O msg) (offers : List Offer) (hoffers : ∀ o ∈ offers, o.index < O.n)
    (s : Session cfg.dedupeWindow) :
    (O.offerAll (publishFrame cfg key) offers s).out.observed =
      s.out.observed ++ offers.map fun o => msg o.index := by
  induction offers generalizing s with
  | nil => exact (List.append_nil _).symm
  | cons o offers ih =>
    obtain ⟨hvalid, hkey, hbytes⟩ := hmsg o.index (hoffers o List.mem_cons_self)
    rw [Origin.offerAll, List.foldl_cons, ← Origin.offerAll,
      ih fun o' ho' => hoffers o' (List.mem_cons_of_mem _ ho'), ← hbytes,
      publishFrame_bytes hd hvalid hkey, Session.publishAccepted_observed, List.map_cons]
    exact List.append_assoc _ [msg o.index] _

variable {origin : Fin sent.length → Origin} {msg : Fin sent.length → ℕ → Native}

/-- How far generation `g` comes with the shards among the events. -/
def stageAt (origin : Fin sent.length → Origin) (pre : List (Arrival sent))
    (g : Fin sent.length) : List Offer × Stage :=
  Stage.run (origin g).n (origin g).reason.toNat (delivered pre g)

/-- Where the stream is after the events `pre`. -/
structure Delivering (key : Key) (origin : Fin sent.length → Origin)
    (msg : Fin sent.length → ℕ → Native) (pre : List (Arrival sent))
    (R : Stream cfg.dedupeWindow × Output) : Prop where
  /-- No slot holds a generation of which nothing has come. -/
  untouched : ∀ g, delivered pre g = [] → ¬ R.1.decoder.Holds (origin g).genId
  /-- A slot that holds a generation is at the stage its shards lead to. -/
  stage : ∀ g, R.1.decoder.Holds (origin g).genId →
    Sim (origin g) (R.1.decoder.held (origin g).genId) (stageAt origin pre g).2
  /-- What was observed is what the stages offered. -/
  observed : ∀ m, m ∈ R.2.observed ↔ ∃ g, ∃ o ∈ (stageAt origin pre g).1, m = msg g o.index
  /-- The books are in order. -/
  within : Within key {} ⟨R.1.dedupe, R.1.lastSeq, R.2⟩

theorem Delivering.start (cfg : Config) :
    Delivering key origin msg [] ((Stream.new cfg.fecGens : Stream cfg.dedupeWindow), {}) where
  untouched := fun g _ hholds => by
    have hactive := hholds.1
    rw [Decoder.held, Stream.new, Decoder.new_slot] at hactive
    cases hactive
  stage := fun g hholds => by
    have hactive := hholds.1
    rw [Decoder.held, Stream.new, Decoder.new_slot] at hactive
    cases hactive
  observed := fun m => ⟨fun hm => absurd hm List.not_mem_nil, fun ⟨_, _, ho, _⟩ => (nomatch ho)⟩
  within := ⟨⟨[], rfl, fun m hm => absurd hm List.not_mem_nil⟩,
    ⟨[], rfl, fun q hq => absurd hq List.not_mem_nil⟩,
    fun _ => Accounts.fresh (fun m hm => absurd hm List.not_mem_nil)
      (fun q hq => absurd hq List.not_mem_nil)⟩

theorem Delivering.expire {pre : List (Arrival sent)} {R : Stream cfg.dedupeWindow × Output}
    (h : Delivering key origin msg pre R) (now ttl : ℕ) :
    Delivering key origin msg (pre ++ [.expire now ttl])
      (streamStep cfg key sent R (.expire now ttl)) := by
  refine ⟨fun g hnil hholds => ?_, fun g hholds => ?_, ?_, h.within⟩
  · rw [delivered_expire] at hnil
    exact h.untouched g hnil hholds.of_expire.2
  · obtain ⟨hheld, hbefore⟩ := hholds.of_expire
    rw [stageAt, delivered_expire, ← stageAt]
    change Sim _ ((R.1.decoder.expire now ttl).held _) _
    rw [hheld]
    exact h.stage g hbefore
  · intro m
    simp only [stageAt, delivered_expire]
    exact h.observed m

theorem stageAt_shard (pre : List (Arrival sent)) (g : Fin sent.length)
    (x : Fin (sent.get g).built.shards.length) (now : ℕ) :
    stageAt origin (pre ++ [.shard g x now]) g =
      ((stageAt origin pre g).1 ++
          ((stageAt origin pre g).2.arrive (origin g).n (origin g).reason.toNat x).1,
        ((stageAt origin pre g).2.arrive (origin g).n (origin g).reason.toNat x).2) := by
  rw [stageAt, delivered_shard, Stage.run_concat]
  rfl

theorem stageAt_shard_ne (pre : List (Arrival sent)) {g g' : Fin sent.length} (hne : g ≠ g')
    (x : Fin (sent.get g).built.shards.length) (now : ℕ) :
    stageAt origin (pre ++ [.shard g x now]) g' = stageAt origin pre g' := by
  rw [stageAt, delivered_shard_ne pre hne, ← stageAt]

/-- What the stages have offered after one more shard. -/
theorem offered_shard (pre : List (Arrival sent)) (g : Fin sent.length)
    (x : Fin (sent.get g).built.shards.length) (now : ℕ) (m : Native) :
    (∃ g', ∃ o ∈ (stageAt origin (pre ++ [.shard g x now]) g').1, m = msg g' o.index) ↔
      (∃ g', ∃ o ∈ (stageAt origin pre g').1, m = msg g' o.index) ∨
        ∃ o ∈ ((stageAt origin pre g).2.arrive (origin g).n (origin g).reason.toNat x).1,
          m = msg g o.index := by
  constructor
  · rintro ⟨g', o, ho, rfl⟩
    by_cases hne : g = g'
    · subst hne
      rw [stageAt_shard] at ho
      rcases List.mem_append.mp ho with ho | ho
      · exact Or.inl ⟨g, o, ho, rfl⟩
      · exact Or.inr ⟨o, ho, rfl⟩
    · rw [stageAt_shard_ne pre hne] at ho
      exact Or.inl ⟨g', o, ho, rfl⟩
  · rintro (⟨g', o, ho, rfl⟩ | ⟨o, ho, rfl⟩)
    · refine ⟨g', o, ?_, rfl⟩
      by_cases hne : g = g'
      · subst hne
        rw [stageAt_shard]
        exact List.mem_append_left _ ho
      · rw [stageAt_shard_ne pre hne]
        exact ho
    · refine ⟨g, o, ?_, rfl⟩
      rw [stageAt_shard]
      exact List.mem_append_right _ ho

/-- **One shard.** -/
theorem Delivering.shard (hd : cfg.dedupeEnabled = true)
    (hids : Function.Injective fun g => (origin g).genId)
    (hbuilt : ∀ g, (origin g).built = (sent.get g).built)
    (hreason : ∀ g, (origin g).reason.toNat ≤ 2) (hmsg : ∀ g, Names key (origin g) (msg g))
    {pre : List (Arrival sent)} {R : Stream cfg.dedupeWindow × Output}
    (h : Delivering key origin msg pre R) (g : Fin sent.length)
    (x : Fin (sent.get g).built.shards.length) (now : ℕ)
    (hkept : delivered pre g ≠ [] → R.1.decoder.Holds (origin g).genId) :
    Delivering key origin msg (pre ++ [.shard g x now])
      (streamStep cfg key sent R (.shard g x now)) := by
  obtain ⟨hx, hshard⟩ := Sent.shard_eq (hbuilt g) x.isLt
  -- the slot is at the stage of the shards so far, or starts now
  have hstage : R.1.decoder.StageOf (origin g) (stageAt origin pre g).2 := by
    refine ⟨h.stage g, fun hnot => ?_⟩
    have hnil : delivered pre g = [] := by
      by_contra hne
      exact hnot (hkept hne)
    rw [stageAt, hnil]
    rfl
  obtain ⟨d', s', hrun, honly, hholds, hsim, hs', hwithin⟩ := Decoder.receive_shard
    (hreason g) hstage (takes_within hd (hmsg g) {}) h.within hx now
  have hstep : streamStep cfg key sent R (.shard g x now) =
      (⟨d', s'.dedupe, s'.lastSeq⟩, s'.out) := by
    rw [streamStep, hshard, receiveStream, hrun]
  rw [hstep]
  refine ⟨fun g' hnil hholds' => ?_, fun g' hholds' => ?_, fun m => ?_, hwithin⟩
  · by_cases hne : g = g'
    · subst hne
      rw [delivered_shard] at hnil
      exact absurd hnil (List.append_ne_nil_of_right_ne_nil _ (List.cons_ne_nil _ _))
    · rw [delivered_shard_ne pre hne] at hnil
      exact h.untouched g' hnil (hholds.of_onlySlot honly (hids.ne hne) hholds').2
  · by_cases hne : g = g'
    · subst hne
      rw [stageAt_shard]
      exact hsim
    · -- another generation that is held sits in another slot, which did not change
      obtain ⟨hheld, hbefore⟩ := hholds.of_onlySlot honly (hids.ne hne) hholds'
      rw [stageAt_shard_ne pre hne]
      change Sim _ (d'.held _) _
      rw [hheld]
      exact h.stage g' hbefore
  · rw [hs', offerAll_observed hd (hmsg g) _ fun o ho => Sent.arrive_index_lt ho, List.mem_append,
      h.observed m, offered_shard, List.mem_map]
    simp only [eq_comm]

end Follow

/-! ### What is on the ring in the end -/

/-- Messages numbered from one: the number tells the place. -/
theorem seqOf_getElem {messages : List Native}
    (hseq : messages.map seqOf = List.range' 1 messages.length) {i : ℕ}
    (hi : i < messages.length) : seqOf messages[i] = i + 1 := by
  have hget : (messages.map seqOf)[i]? = some (i + 1) := by
    rw [hseq, List.getElem?_range' hi, Nat.one_mul, Nat.add_comm]
  rw [List.getElem?_map, List.getElem?_eq_getElem hi] at hget
  exact Option.some.inj hget

/-- If all the messages are shown to a window, the accepted ones are those from the first one
shown onwards. -/
theorem accepted_perm {w : WindowSize} {messages observed frames : List Native}
    (hseq : messages.map seqOf = List.range' 1 messages.length)
    (hfits : messages.length ≤ w.val) (hobs : ∀ m, m ∈ observed ↔ m ∈ messages)
    (hsub : ∀ m ∈ frames, m ∈ observed)
    (hring : frames.map seqOf = (Ledger.run w (observed.map seqOf)).accepted) :
    ∃ j ≤ messages.length - 1, observed.head? = messages[j]? ∧
      frames.Perm (messages.drop j) := by
  have hplace : ∀ m ∈ messages,
      ∃ i, ∃ hi : i < messages.length, messages[i] = m ∧ seqOf m = i + 1 := by
    intro m hm
    obtain ⟨i, hi, rfl⟩ := List.getElem_of_mem hm
    exact ⟨i, hi, rfl, seqOf_getElem hseq hi⟩
  have hnodup : messages.Nodup := List.Nodup.of_map seqOf (hseq ▸ List.nodup_range')
  have hinj : ∀ m ∈ messages, ∀ m' ∈ messages, seqOf m = seqOf m' → m = m' := by
    intro m hm m' hm' heq
    obtain ⟨i, hi, rfl, hi'⟩ := hplace m hm
    obtain ⟨i', hi₂, rfl, hi₂'⟩ := hplace m' hm'
    obtain rfl : i = i' := by omega
    rfl
  -- all numbers lie within one window
  have hclose : ∀ s ∈ observed.map seqOf, ∀ t ∈ observed.map seqOf, t < s + w.val := by
    intro s hs t ht
    obtain ⟨m, hm, rfl⟩ := List.mem_map.mp hs
    obtain ⟨m', hm', rfl⟩ := List.mem_map.mp ht
    obtain ⟨i, hi, -, hi'⟩ := hplace m ((hobs m).mp hm)
    obtain ⟨i', hi₂, -, hi₂'⟩ := hplace m' ((hobs m').mp hm')
    omega
  have hmem := Ledger.mem_run_accepted hclose
  rw [← hring] at hmem
  have hframes : frames.Nodup :=
    List.Nodup.of_map seqOf (hring ▸ Ledger.run_nodup _)
  cases observed with
  | nil =>
    have hnil : messages = [] := by
      refine List.eq_nil_iff_forall_not_mem.mpr fun m hm => ?_
      exact List.not_mem_nil ((hobs m).mpr hm)
    have hfnil : frames = [] := List.eq_nil_iff_forall_not_mem.mpr fun m hm =>
      List.not_mem_nil (hsub m hm)
    refine ⟨0, Nat.zero_le _, ?_, ?_⟩
    · rw [hnil]; rfl
    · rw [hnil, hfnil]; exact List.Perm.refl _
  | cons first rest =>
    obtain ⟨j, hj, hfirst, hjseq⟩ := hplace first ((hobs first).mp List.mem_cons_self)
    refine ⟨j, by omega, ?_, ?_⟩
    · rw [List.head?_cons, List.getElem?_eq_getElem hj, hfirst]
    refine (List.perm_ext_iff_of_nodup hframes (hnodup.sublist (List.drop_sublist _ _))).mpr ?_
    intro m
    constructor
    · intro hm
      obtain ⟨i, hi, rfl, hiseq⟩ := hplace m ((hobs m).mp (hsub m hm))
      have hge := ((hmem _).mp (List.mem_map_of_mem hm)).2 (seqOf first) rfl
      exact List.mem_drop_iff_getElem.mpr ⟨i - j, by omega, by congr 1; omega⟩
    · intro hm
      have hm' := List.mem_of_mem_drop hm
      obtain ⟨i, hi, heq⟩ := List.mem_drop_iff_getElem.mp hm
      have hge : seqOf first ≤ seqOf m := by
        rw [← heq, hjseq, seqOf_getElem hseq]
        omega
      have hacc : seqOf m ∈ frames.map seqOf := (hmem _).mpr
        ⟨List.mem_map_of_mem ((hobs m).mpr hm'), fun f hf => by
          rw [← Option.some.inj hf]
          exact hge⟩
      obtain ⟨m', hm₂, hsame⟩ := List.mem_map.mp hacc
      rw [← hinj m' ((hobs m').mp (hsub m' hm₂)) m hm' hsame]
      exact hm₂

namespace Schedule

variable {cfg : Config} {key : Key} (S : Schedule cfg key k p)

/-- Valid messages with the same bytes are the same. -/
theorem bytes_inj {m m' : Native} (h : validateFrame m.header m.size = true)
    (h' : validateFrame m'.header m'.size = true) (heq : Wire.bytes m = Wire.bytes m') :
    m = m' := by
  have hdec := Wire.decode_encode m h { frame := none, nativeLen := 0 }
  rw [heq, Wire.decode_encode m' h'] at hdec
  exact (Option.some.inj (congrArg (fun r => r.2.frame) hdec)).symm

/-- The message every frame of a generation encodes. -/
theorem exists_names {origin : Fin S.sent.length → Origin}
    (hframes : ∀ g, (origin g).encoder.frames = (S.sent.get g).frames) :
    ∃ msg : Fin S.sent.length → ℕ → Native,
      (∀ g, Names key (origin g) (msg g)) ∧ (∀ g, ∀ i < (origin g).n, msg g i ∈ S.messages) ∧
      ∀ m ∈ S.messages, ∃ g, ∃ i < (origin g).n, m = msg g i := by
  have hmsg : ∀ g i, ∃ m,
      i < (origin g).n → m ∈ S.messages ∧ Wire.bytes m = (origin g).frame i := by
    intro g i
    by_cases hi : i < (origin g).n
    · have hmem : (origin g).frame i ∈ (S.sent.map Sent.frames).flatten := by
        refine List.mem_flatten_of_mem (List.mem_map_of_mem (List.get_mem S.sent g)) ?_
        rw [← hframes g]
        exact (origin g).frame_mem hi
      rw [S.split] at hmem
      obtain ⟨m, hm, hbytes⟩ := List.mem_map.mp hmem
      exact ⟨m, fun _ => ⟨hm, hbytes⟩⟩
    · exact ⟨.trade Wire.goldenTrade, fun h => absurd h hi⟩
  choose msg hmsg using hmsg
  refine ⟨msg, fun g i hi => ?_, fun g i hi => (hmsg g i hi).1, fun m hm => ?_⟩
  · obtain ⟨hm, hbytes⟩ := hmsg g i hi
    exact ⟨(S.valid _ hm).1, (S.valid _ hm).2, hbytes⟩
  · -- the encoding of `m` is a frame of some generation
    have hmem : Wire.bytes m ∈ (S.sent.map Sent.frames).flatten := by
      rw [S.split]
      exact List.mem_map_of_mem hm
    obtain ⟨frames, hfs, hf⟩ := List.mem_flatten.mp hmem
    obtain ⟨s, hs, rfl⟩ := List.mem_map.mp hfs
    obtain ⟨g, rfl⟩ := List.get_of_mem hs
    rw [← hframes g] at hf
    obtain ⟨i, hi, hframe⟩ := List.getElem_of_mem hf
    refine ⟨g, i, hi, bytes_inj (S.valid m hm).1 (S.valid _ (hmsg g i hi).1).1 ?_⟩
    rw [(hmsg g i hi).2, ← hframe, Origin.frame, List.getD_eq_getElem _ _ hi]

/-- **Along the schedule.** -/
theorem delivering (hd : cfg.dedupeEnabled = true) {origin : Fin S.sent.length → Origin}
    {msg : Fin S.sent.length → ℕ → Native} (hids : Function.Injective fun g => (origin g).genId)
    (hid : ∀ g, (origin g).genId = (S.sent.get g).genId)
    (hbuilt : ∀ g, (origin g).built = (S.sent.get g).built)
    (hreason : ∀ g, (origin g).reason.toNat ≤ 2) (hmsg : ∀ g, Names key (origin g) (msg g))
    (pre post : List (Arrival S.sent)) (hsplit : S.events = pre ++ post) :
    Delivering key origin msg pre (streamRun cfg key S.sent pre) := by
  induction pre using List.reverseRecOn generalizing post with
  | nil => exact Delivering.start cfg
  | append_singleton pre e ih =>
    rw [List.append_assoc, List.singleton_append] at hsplit
    have hbefore := ih (e :: post) hsplit
    rw [streamRun_concat]
    cases e with
    | shard g x now =>
      refine hbefore.shard hd hids hbuilt hreason hmsg g x now fun hne => ?_
      rw [hid g]
      exact S.kept pre g x now post hsplit hne
    | expire now ttl => exact hbefore.expire now ttl

/-- Everything sent is observed in the end, and nothing else. -/
theorem observed_iff (hd : cfg.dedupeEnabled = true) :
    (∀ m, m ∈ (streamRun cfg key S.sent S.events).2.observed ↔ m ∈ S.messages) ∧
      Within key {} ⟨(streamRun cfg key S.sent S.events).1.dedupe,
        (streamRun cfg key S.sent S.events).1.lastSeq,
        (streamRun cfg key S.sent S.events).2⟩ := by
  obtain ⟨origin, hids, horigin⟩ := Sent.exists_origins S.ids S.reasons
  obtain ⟨msg, hmsg, hmem, hall⟩ := S.exists_names fun g => (horigin g).2.1
  have hend := S.delivering hd hids (fun g => (horigin g).2.2.1) (fun g => (horigin g).2.2.2.2)
    (fun g => (horigin g).2.2.2.1) hmsg S.events [] (List.append_nil _).symm
  refine ⟨fun m => (hend.observed m).trans ?_, hend.within⟩
  have halong := fun g =>
    Stage.Along.run (origin g).n (origin g).reason.toNat (delivered S.events g)
  constructor
  · rintro ⟨g, o, ho, rfl⟩
    have hheld := ((halong g).offered o.index).mp ⟨o, ho, rfl⟩
    exact hmem g _ (Finset.mem_range.mp ((halong g).held_sub hheld))
  · intro hm
    obtain ⟨g, i, hi, rfl⟩ := hall m hm
    -- as many shards as frames have come, so frame `i` was offered
    have henough : (origin g).n ≤ (delivered S.events g).toFinset.card := by
      have hloss := S.loss g
      rw [← (horigin g).2.2.2.2, (origin g).shards_length, (horigin g).1] at hloss
      omega
    have hheld : i ∈ (stageAt origin S.events g).2.held := by
      rw [stageAt, (halong g).held_of_enough henough]
      exact Finset.mem_range.mpr hi
    obtain ⟨o, ho, rfl⟩ := ((halong g).offered i).mpr hheld
    exact ⟨g, o, ho, rfl⟩

end Schedule

/-- **Delivery from the first frame on.** However the shards of the generations arrive, with
at most `p` of each lost and no generation evicted or expired between its shards, the frames
on the ring are, each once, those from the first frame the receiver obtained onwards; so all
of them are there exactly if that was the first of the stream. -/
theorem delivered_from_first {cfg : Config} {key : Key} (S : Schedule cfg key k p)
    (hd : cfg.dedupeEnabled = true) :
    let out := (streamRun cfg key S.sent S.events).2
    ∃ j ≤ S.messages.length - 1, out.observed.head? = S.messages[j]? ∧
      (out.ring.map Published.frame).Perm (S.messages.drop j) ∧
      ((out.ring.map Published.frame).Perm S.messages ↔ j = 0) := by
  intro out
  obtain ⟨hobs, hwithin⟩ := S.observed_iff hd
  obtain ⟨new, hring, hnew⟩ := hwithin.ring
  have hring : out.ring = new := hring
  have hkeys : ∀ m ∈ out.observed, keyOf m = key := fun m hm => (S.valid m ((hobs m).mp hm)).2
  have hsub : ∀ m ∈ out.ring.map Published.frame, m ∈ out.observed := by
    intro m hm
    obtain ⟨q, hq, rfl⟩ := List.mem_map.mp hm
    exact (hnew q (hring ▸ hq)).2.2
  -- all frames are of the one stream, so its numbers are all numbers
  have hone : ∀ frames : List Native, (∀ m ∈ frames, keyOf m = key) →
      seqsOf key frames = frames.map seqOf := fun frames hframes => by
    rw [seqsOf, List.filter_eq_self.mpr fun m hm => by simpa using hframes m hm]
  have hwindow := cfg.window_le
  have hbooks := hwithin.accounts fun m hm => by
    obtain ⟨i, hi, rfl⟩ := List.getElem_of_mem ((hobs m).mp hm)
    have hfits := S.fits
    rw [Clear, seqOf_getElem S.seqs hi, Dedupe.wrap]
    omega
  have hseqs := hbooks.ring
  rw [hone _ fun m hm => hkeys m (hsub m hm), hone _ hkeys] at hseqs
  obtain ⟨j, hj, hhead, hperm⟩ := accepted_perm S.seqs S.fits hobs hsub hseqs
  refine ⟨j, hj, hhead, hperm, fun hfull => ?_, ?_⟩
  -- both are permutations of the ring, so nothing was dropped from the front
  · have hlen := (hfull.symm.trans hperm).length_eq
    rw [List.length_drop] at hlen
    omega
  · rintro rfl
    exact hperm

/-- Message number `n` of the stream `⟨11, 12⟩`. -/
def numbered (n : ℕ) : Native :=
  .trade { Wire.goldenTrade with
    header := { Wire.goldenTrade.header with seqId := BitVec.ofNat 64 n } }

theorem numbered_length (n : ℕ) : (Wire.bytes (numbered n)).length = 200 := Wire.bytes_length _

/-- What the encoder makes of a generation of one message, with one parity shard. -/
def buildSingle (n : ℕ) :
    { built // Encoder.build 1 1 [Wire.bytes (numbered n)] (BitVec.ofNat 32 n) 0 = .ok built } :=
  match h : Encoder.build 1 1 [Wire.bytes (numbered n)] (BitVec.ofNat 32 n) 0 with
  | .ok built => ⟨built, rfl⟩
  | .error _ => False.elim <| by
    obtain ⟨built, hbuilt⟩ := @Origin.exists_build 1 1 [Wire.bytes (numbered n)] (by decide)
      (by decide) ⟨le_rfl, le_rfl⟩
      (fun f hf => by rw [List.mem_singleton.mp hf, numbered_length]; decide) (BitVec.ofNat 32 n) 0
    rw [hbuilt] at h
    cases h

/-- Messages one and two, each in a generation of its own. -/
def singles : List (Sent 1 1) :=
  [⟨_, _, _, _, (buildSingle 1).2⟩, ⟨_, _, _, _, (buildSingle 2).2⟩]

theorem singles_shards : ∀ g : Fin singles.length, (singles.get g).built.shards.length = 2 := by
  decide +kernel

/-- One shard of each arrives: shard `x` of generation `a`, then shard `y` of the other. -/
def oneOfEach (a b : Fin singles.length) (hab : a ≠ b) (x y : Fin 2) :
    Schedule smallConfig ⟨11, 12⟩ 1 1 where
  messages := [numbered 1, numbered 2]
  sent := singles
  events :=
    [.shard a (x.cast (singles_shards a).symm) 5, .shard b (y.cast (singles_shards b).symm) 6]
  valid := by
    intro m hm
    rcases List.mem_cons.mp hm with rfl | hm
    · exact ⟨by decide, rfl⟩
    · rw [List.mem_singleton.mp hm]
      exact ⟨by decide, rfl⟩
  seqs := by decide +kernel
  split := rfl
  ids := by decide +kernel
  reasons := by decide +kernel
  fits := by decide
  loss := by
    intro g
    have hg : a = g ∨ b = g := by
      have ha : a.val < 2 := a.isLt
      have hb : b.val < 2 := b.isLt
      have hlt : g.val < 2 := g.isLt
      rw [Fin.ext_iff, Fin.ext_iff]
      rw [Ne, Fin.ext_iff] at hab
      omega
    rw [singles_shards]
    refine Nat.succ_le_succ (Finset.card_pos.mpr (List.toFinset_nonempty_iff _ |>.mpr ?_))
    rcases hg with rfl | rfl <;> simp [delivered]
  kept := by
    -- the second shard is of the other generation, so none comes after one of its own
    intro pre g z now post hsplit hne
    match pre with
    | [] => exact absurd rfl hne
    | [e] =>
      injection hsplit with he hrest
      injection hrest with hshard
      injection hshard with hg
      subst hg he
      simp [delivered, hab] at hne
    | _ :: _ :: _ => simp at hsplit

/-- The first message comes as it is, the second is recovered from parity: both are on the
ring. -/
theorem second_recovered_after_first :
    let S := oneOfEach ⟨0, by decide⟩ ⟨1, by decide⟩ (by decide) 0 1
    ((streamRun smallConfig ⟨11, 12⟩ S.sent S.events).2.ring.map Published.frame).Perm
      [numbered 1, numbered 2] := by
  intro S
  have hlen : (streamRun smallConfig ⟨11, 12⟩ S.sent S.events).2.ring.length = 2 := by
    decide +kernel
  obtain ⟨j, hj, -, hperm, -⟩ := delivered_from_first S rfl
  have hdrop := hperm.length_eq
  rw [List.length_map, hlen, List.length_drop] at hdrop
  obtain rfl : j = 0 := by
    have htwo : S.messages.length = 2 := rfl
    omega
  exact hperm

/-- The second message comes before the first, nothing is lost but parity: the first message
is too old for the window and does not reach the ring. -/
theorem second_frame_first :
    ∃ S : Schedule smallConfig ⟨11, 12⟩ 1 1, smallConfig.dedupeEnabled = true ∧
      S.messages = [numbered 1, numbered 2] ∧
      (streamRun smallConfig ⟨11, 12⟩ S.sent S.events).2.ring.map (fun q => seqOf q.frame) = [2] ∧
      ¬ ((streamRun smallConfig ⟨11, 12⟩ S.sent S.events).2.ring.map Published.frame).Perm
        S.messages := by
  have hring : ∀ S, S = oneOfEach ⟨1, by decide⟩ ⟨0, by decide⟩ (by decide) 0 0 →
      (streamRun smallConfig ⟨11, 12⟩ S.sent S.events).2.ring.map (fun q => seqOf q.frame) =
        [2] := by
    rintro S rfl
    decide +kernel
  refine ⟨_, rfl, rfl, hring _ rfl, fun hperm => ?_⟩
  have hone := congrArg List.length (hring _ rfl)
  have hlen := hperm.length_eq
  rw [List.length_map] at hone hlen
  rw [hone] at hlen
  cases hlen

end Receiver
end PulseFanout
