import PulseFanout.Fec.Delivery

/-!
# Erasure correction

The decoder as a whole, with a callback that records what it is handed and never fails.

* `erasure_correction` — one generation, its shards arriving in any order and any number of
  times while the rest of the world uses the decoder as it likes, short of disturbing the
  generation's slot: as many different shards as there are frames bring back every frame,
  fewer bring back the data shards that came.
* `published_genuine` — many generations sharing the slots, with loss, duplication,
  reordering, lateness, eviction and expiry: whatever is published while a shard is received
  is a frame of that shard's generation.

Both need the close reason to be one the decoder knows. `close` writes any byte, and
`receive` turns away parity shards whose reason is above two (`reason_three_refused`,
`reason_three_rejected`); the sender uses zero, one and two.
-/

namespace PulseFanout
namespace Fec

open Framework

/-! ### The recording callback -/

/-- What the callback was handed. -/
structure Publication where
  payload : List Byte
  recovered : Bool
  reason : ℕ
deriving DecidableEq, Repr

/-- A callback that records and succeeds. -/
def record : Publish (List Publication) := fun payload recovered reason log =>
  (true, log ++ [⟨payload, recovered, reason⟩])

/-- An offer of `O` as the callback sees it. -/
def Origin.publication (O : Origin) (o : Offer) : Publication :=
  ⟨O.frame o.index, o.recovered, o.reason⟩

theorem offerAll_record (O : Origin) (offers : List Offer) (log : List Publication) :
    O.offerAll record offers log = log ++ offers.map O.publication := by
  induction offers generalizing log with
  | nil => exact (List.append_nil log).symm
  | cons o offers ih =>
    rw [Origin.offerAll, List.foldl_cons, ← Origin.offerAll, ih, List.map_cons]
    exact (List.append_cons _ _ _).symm

theorem takes_record (O : Origin) : Sim.Takes record O fun _ => True :=
  fun _ _ _ _ _ _ => ⟨rfl, trivial⟩

theorem shards_getD (O : Origin) {x : ℕ} (hx : x < O.n + O.p) :
    O.built.shards.getD x [] = O.shard x := by
  rw [O.built_shards, getD_map (d := 0) _ _ (by rw [List.length_range]; exact hx),
    List.getD_eq_getElem _ _ (by rw [List.length_range]; exact hx), List.getElem_range]

/-! ### One generation -/

/-- What happens to a decoder while one generation is received. -/
inductive Event
  /-- Shard `x` of the generation arrives. -/
  | shard (x now : ℕ)
  /-- Any other datagram arrives. -/
  | other (data : List Byte) (now : ℕ)
  /-- `expire` -/
  | expire (now ttl : ℕ)

/-- The shard numbers among the events. -/
def Event.shard? : Event → Option ℕ
  | .shard x _ => some x
  | _ => none

/-- The decoder, what was published while the generation's shards were received, and what
`receive` returned for them. -/
structure Feed where
  decoder : Decoder
  log : List Publication
  oks : List Bool

namespace Feed

/-- One event. -/
def step (built : BuiltGeneration) (F : Feed) : Event → Feed
  | .shard x now =>
    let (ok, d, log) := F.decoder.receive record (built.shards.getD x []) now F.log
    ⟨d, log, F.oks ++ [ok]⟩
  | .other data now => { F with decoder := (F.decoder.receive record data now []).2.1 }
  | .expire now ttl => { F with decoder := F.decoder.expire now ttl }

/-- A sequence of events. -/
def run (built : BuiltGeneration) (F : Feed) (events : List Event) : Feed :=
  events.foldl (step built) F

/-- The slot of `genId` is not disturbed from `d` to `d'`: it is as it was if it holds the
generation, and does not hold it otherwise. -/
def Kept (d d' : Decoder) (genId : BitVec 32) : Prop :=
  (d.Holds genId → d'.held genId = d.held genId) ∧ (¬ d.Holds genId → ¬ d'.Holds genId)

/-- Along the events the shards are those of the generation and its slot is neither evicted
nor expired. -/
def Undisturbed (built : BuiltGeneration) (genId : BitVec 32) : Feed → List Event → Prop
  | _, [] => True
  | F, e :: events =>
    (match e with
      | .shard x _ => x < built.shards.length
      | _ => Kept F.decoder (F.step built e).decoder genId) ∧
    Undisturbed built genId (F.step built e) events

/-- After the shards `xs` the generation is at the stage they lead to. -/
structure Fed (O : Origin) (xs : List ℕ) (F : Feed) : Prop where
  stage : F.decoder.StageOf O (Stage.run O.n O.reason.toNat xs).2
  log : F.log = (Stage.run O.n O.reason.toNat xs).1.map O.publication
  oks : ∀ ok ∈ F.oks, ok = true

theorem Kept.stageOf {d d' : Decoder} {O : Origin} {S : Stage} (h : Kept d d' O.genId)
    (hstage : d.StageOf O S) : d'.StageOf O S := by
  by_cases hholds : d.Holds O.genId
  · have hheld := h.1 hholds
    have hsim := hstage.sim hholds
    refine ⟨fun _ => by rw [hheld]; exact hsim, fun hnot => absurd ?_ hnot⟩
    rw [Decoder.Holds, hheld]
    exact hholds
  · exact ⟨fun hd => absurd hd (h.2 hholds), fun _ => hstage.fresh hholds⟩

theorem Fed.step {O : Origin} (hreason : O.reason.toNat ≤ 2) {xs : List ℕ} {F : Feed}
    (h : Fed O xs F) {e : Event}
    (hvalid : match e with
      | .shard x _ => x < O.built.shards.length
      | _ => Kept F.decoder (F.step O.built e).decoder O.genId) :
    Fed O (xs ++ e.shard?.toList) (F.step O.built e) := by
  cases e with
  | shard x now =>
    have hx : x < O.n + O.p := by
      rw [O.shards_length] at hvalid
      exact hvalid
    obtain ⟨d', log', hrun, -, hholds, hsim, hlog, -⟩ := Decoder.receive_shard (s := F.log)
      hreason h.stage (takes_record O) trivial hx now
    have hstep : F.step O.built (.shard x now) = ⟨d', log', F.oks ++ [true]⟩ := by
      rw [Feed.step, shards_getD O hx, hrun]
    rw [hstep]
    change Fed O (xs ++ [x]) _
    refine ⟨?_, ?_, ?_⟩
    · rw [Stage.run_concat]
      exact ⟨fun _ => hsim, fun hnot => absurd hholds hnot⟩
    · rw [Stage.run_concat, List.map_append, ← h.log, hlog, offerAll_record]
    · intro ok hok
      rcases List.mem_append.mp hok with hok | hok
      · exact h.oks ok hok
      · exact List.mem_singleton.mp hok
  | other data now =>
    rw [show (Event.other data now).shard?.toList = [] from rfl, List.append_nil]
    exact ⟨Kept.stageOf hvalid h.stage, h.log, h.oks⟩
  | expire now ttl =>
    rw [show (Event.expire now ttl).shard?.toList = [] from rfl, List.append_nil]
    exact ⟨Kept.stageOf hvalid h.stage, h.log, h.oks⟩

/-- **Along the events** the generation is at the stage its shards lead to. -/
theorem Fed.run {O : Origin} (hreason : O.reason.toNat ≤ 2) (events : List Event) {xs : List ℕ}
    {F : Feed} (h : Fed O xs F) (hvalid : Undisturbed O.built O.genId F events) :
    Fed O (xs ++ events.filterMap Event.shard?) (F.run O.built events) := by
  induction events generalizing xs F with
  | nil =>
    rw [List.filterMap_nil, List.append_nil]
    exact h
  | cons e events ih =>
    obtain ⟨he, hrest⟩ := hvalid
    have hnext := ih (h.step hreason he) hrest
    have hxs : xs ++ (e :: events).filterMap Event.shard? =
        xs ++ e.shard?.toList ++ events.filterMap Event.shard? := by
      rw [List.filterMap_cons, List.append_assoc]
      cases e.shard? <;> rfl
    rw [hxs]
    exact hnext

/-- The payloads published are the frames at hand. -/
theorem Fed.mem_payload {O : Origin} {xs : List ℕ} {F : Feed} (h : Fed O xs F) (f : List Byte) :
    f ∈ F.log.map Publication.payload ↔
      ∃ i ∈ (Stage.run O.n O.reason.toNat xs).2.held, f = O.frame i := by
  have halong := Stage.Along.run O.n O.reason.toNat xs
  rw [h.log, List.map_map, List.mem_map]
  constructor
  · rintro ⟨o, ho, rfl⟩
    exact ⟨o.index, (halong.offered _).mp ⟨o, ho, rfl⟩, rfl⟩
  · rintro ⟨i, hi, rfl⟩
    obtain ⟨o, ho, rfl⟩ := (halong.offered i).mpr hi
    exact ⟨o, ho, rfl⟩

/-- Those published as recovered are different frames. -/
theorem Fed.recovered {O : Origin} {xs : List ℕ} {F : Feed} (h : Fed O xs F) :
    ∃ is : List ℕ, is.Nodup ∧ (∀ i ∈ is, i < O.n) ∧
      (F.log.filter Publication.recovered).map Publication.payload = is.map O.frame := by
  have halong := Stage.Along.run O.n O.reason.toNat xs
  have hrec : F.log.filter Publication.recovered =
      ((Stage.run O.n O.reason.toNat xs).1.filter Offer.recovered).map O.publication := by
    rw [h.log, List.filter_map]
    rfl
  refine ⟨_, halong.recovered_nodup, fun i hi => ?_, ?_⟩
  · obtain ⟨o, ho, rfl⟩ := List.mem_map.mp hi
    have hheld := (halong.offered _).mp ⟨o, List.mem_of_mem_filter ho, rfl⟩
    exact Finset.mem_range.mp (halong.held_sub hheld)
  · rw [hrec, List.map_map, List.map_map]
    rfl

end Feed

/-- **Exact erasure correction.** Frames within the encoder's limits can be built into a
generation. Closed for one of the reasons zero to two, and fed to a decoder in any order and
any number of times, with any other datagrams and expiries between that leave its slot alone:
every `receive` of a shard returns true; if at least as many different shards as frames came
the payloads published are exactly the frames, otherwise exactly the data frames that came;
and no frame is published as recovered twice. -/
theorem erasure_correction {k p : ℕ} {frames : List (List Byte)} (hk : 1 ≤ k ∧ k ≤ 128)
    (hp : 1 ≤ p ∧ p ≤ 16) (hn : 1 ≤ frames.length ∧ frames.length ≤ k)
    (hlen : ∀ f ∈ frames, 1 ≤ f.length ∧ f.length ≤ 1024) (genId : BitVec 32) {reason : BitVec 8}
    (hreason : reason.toNat ≤ 2) :
    ∃ built, Encoder.build k p frames genId reason = .ok built ∧
      built.shards.length = frames.length + p ∧
      ∀ (d : Decoder) (events : List Event), ¬ d.Holds genId →
        Feed.Undisturbed built genId ⟨d, [], []⟩ events →
        let F := Feed.run built ⟨d, [], []⟩ events
        let xs := events.filterMap Event.shard?
        (∀ ok ∈ F.oks, ok = true) ∧
        (frames.length ≤ xs.toFinset.card →
          ∀ f, f ∈ F.log.map Publication.payload ↔ f ∈ frames) ∧
        (xs.toFinset.card < frames.length →
          ∀ f, f ∈ F.log.map Publication.payload ↔
            ∃ x ∈ xs, x < frames.length ∧ f = frames.getD x []) ∧
        ∃ is : List ℕ, is.Nodup ∧ (∀ i ∈ is, i < frames.length) ∧
          (F.log.filter Publication.recovered).map Publication.payload =
            is.map fun i => frames.getD i [] := by
  obtain ⟨built, hbuild⟩ := Origin.exists_build hk hp hn hlen genId reason
  obtain ⟨O, -, hOp, hframes, hid, hOreason, rfl⟩ := Origin.build_ok hbuild
  refine ⟨O.built, hbuild, ?_, ?_⟩
  · rw [O.shards_length, hOp, Origin.n, hframes]
  intro d events hd hvalid
  subst hid hOreason
  have hOn : O.n = frames.length := by rw [Origin.n, hframes]
  have hframe : O.frame = fun i => frames.getD i [] := by
    funext i
    rw [Origin.frame, hframes]
  have hstart : Feed.Fed O [] ⟨d, [], []⟩ :=
    ⟨⟨fun h => absurd h hd, fun _ => rfl⟩, rfl, fun _ h => absurd h List.not_mem_nil⟩
  have hfed := hstart.run hreason events hvalid
  rw [List.nil_append] at hfed
  have halong := Stage.Along.run O.n O.reason.toNat (events.filterMap Event.shard?)
  refine ⟨hfed.oks, ?_, ?_, ?_⟩
  · -- with enough shards every frame is at hand
    intro henough f
    rw [hfed.mem_payload, halong.held_of_enough (hOn ▸ henough), hframe]
    constructor
    · rintro ⟨i, hi, rfl⟩
      rw [Finset.mem_range, hOn] at hi
      dsimp only
      rw [List.getD_eq_getElem _ _ hi]
      exact List.getElem_mem _
    · intro hf
      obtain ⟨i, hi, rfl⟩ := List.getElem_of_mem hf
      exact ⟨i, Finset.mem_range.mpr (hOn ▸ hi), (List.getD_eq_getElem _ _ hi).symm⟩
  · -- with too few, those that came
    intro hfew f
    rw [hfed.mem_payload, halong.held_of_few (hOn ▸ hfew), hframe]
    simp only [Stage.dataOf, Finset.mem_filter, List.mem_toFinset, hOn, and_assoc]
  · obtain ⟨is, hnodup, hlt, heq⟩ := hfed.recovered
    rw [hframe] at heq
    exact ⟨is, hnodup, fun i hi => hOn ▸ hlt i hi, heq⟩

/-- The first frame and the parity shard bring back the second. -/
theorem second_frame_recovered :
    ∃ built, Encoder.build 2 1 [[1#8], [2#8, 3#8]] 7 0 = .ok built ∧
      ∀ f, f ∈ (Feed.run built ⟨Decoder.new 4, [], []⟩ [.shard 0 5, .shard 2 6]).log.map
          Publication.payload ↔ f ∈ [[1#8], [2#8, 3#8]] := by
  obtain ⟨built, hbuild, hlen, h⟩ := @erasure_correction 2 1 [[1#8], [2#8, 3#8]]
    (by decide) (by decide) (by decide) (by decide) 7 0 (by decide)
  have hshards : built.shards.length = 3 := hlen
  obtain ⟨-, henough, -⟩ := h (Decoder.new 4) [.shard 0 5, .shard 2 6] (by decide)
    ⟨show 0 < built.shards.length by omega, show 2 < built.shards.length by omega, trivial⟩
  exact ⟨built, hbuild, henough (by decide)⟩

/-- A generation of one frame closed for reason three: its parity shard alone is as many
shards as it has frames, yet `receive` returns false and nothing is published. -/
theorem reason_three_refused :
    ∃ built, Encoder.build 1 1 [[7#8]] 0 3 = .ok built ∧
      Feed.Undisturbed built 0 ⟨Decoder.new 64, [], []⟩ [.shard 1 5] ∧
      ([.shard 1 5].filterMap Event.shard?).toFinset.card = 1 ∧
      (Feed.run built ⟨Decoder.new 64, [], []⟩ [.shard 1 5]).oks = [false] ∧
      (Feed.run built ⟨Decoder.new 64, [], []⟩ [.shard 1 5]).log = [] := by
  refine ⟨_, rfl, ⟨by decide, trivial⟩, by decide, by decide +kernel, by decide +kernel⟩

/-! ### Many generations -/

/-- A generation an encoder with the parameters `k` and `p` has closed. -/
structure Sent (k p : ℕ) where
  frames : List (List Byte)
  genId : BitVec 32
  reason : BitVec 8
  built : BuiltGeneration
  /-- Its shards are those the encoder built. -/
  build_eq : Encoder.build k p frames genId reason = .ok built

/-- What can happen to a decoder that many generations share. -/
inductive Arrival {k p : ℕ} (sent : List (Sent k p))
  /-- Shard `x` of generation `g` arrives. -/
  | shard (g : Fin sent.length) (x : Fin (sent.get g).built.shards.length) (now : ℕ)
  /-- `expire` -/
  | expire (now ttl : ℕ)

/-- What one call of `receive` did: the generation its shard named, the result, and what was
published. -/
structure Outcome (generations : ℕ) where
  g : Fin generations
  ok : Bool
  published : List Publication
deriving DecidableEq

namespace Sent

variable {k p : ℕ} {sent : List (Sent k p)}

/-- One event. -/
def step (sent : List (Sent k p)) (R : Decoder × List (Outcome sent.length)) :
    Arrival sent → Decoder × List (Outcome sent.length)
  | .shard g x now =>
    let (ok, d, published) :=
      R.1.receive record ((sent.get g).built.shards.getD x []) now []
    (d, R.2 ++ [⟨g, ok, published⟩])
  | .expire now ttl => (R.1.expire now ttl, R.2)

/-- A sequence of events. -/
def run (sent : List (Sent k p)) (d : Decoder) (events : List (Arrival sent)) :
    Decoder × List (Outcome sent.length) :=
  events.foldl (step sent) (d, [])

/-- Every active slot holds genuine shards of one of the generations. -/
def Sound (origin : Fin sent.length → Origin) (d : Decoder) : Prop :=
  ∀ j, (d.slots.getD j {}).active = true →
    ∃ g S, (d.slots.getD j {}).genId = (origin g).genId ∧ Sim (origin g) (d.slots.getD j {}) S

/-- The shards of a closed generation are those of its origin. -/
theorem shard_eq {s : Sent k p} {O : Origin} (hbuilt : O.built = s.built) {x : ℕ}
    (hx : x < s.built.shards.length) :
    x < O.n + O.p ∧ s.built.shards.getD x [] = O.shard x := by
  rw [← hbuilt] at hx ⊢
  rw [O.shards_length] at hx
  exact ⟨hx, shards_getD O hx⟩

/-- The generations as the decoder's lemmas take them. -/
theorem exists_origins (hids : (sent.map Sent.genId).Nodup)
    (hreason : ∀ s ∈ sent, s.reason.toNat ≤ 2) :
    ∃ origin : Fin sent.length → Origin,
      (Function.Injective fun g => (origin g).genId) ∧ ∀ g, (origin g).p = p ∧
        (origin g).encoder.frames = (sent.get g).frames ∧ (origin g).genId = (sent.get g).genId ∧
        (origin g).reason.toNat ≤ 2 ∧ (origin g).built = (sent.get g).built := by
  have horigin : ∀ g : Fin sent.length, ∃ O : Origin, O.p = p ∧
      O.encoder.frames = (sent.get g).frames ∧ O.genId = (sent.get g).genId ∧
      O.reason.toNat ≤ 2 ∧ O.built = (sent.get g).built := by
    intro g
    obtain ⟨O, -, hp, hframes, hid, hr, hbuilt⟩ := Origin.build_ok (sent.get g).build_eq
    exact ⟨O, hp, hframes, hid, hr ▸ hreason _ (List.get_mem _ _), hbuilt⟩
  choose origin horigin using horigin
  refine ⟨origin, fun a b heq => ?_, horigin⟩
  dsimp only at heq
  rw [(horigin a).2.2.1, (horigin b).2.2.1] at heq
  have hget : (sent.map Sent.genId)[(a : ℕ)] = (sent.map Sent.genId)[(b : ℕ)] := by
    simpa using heq
  exact Fin.ext (hids.getElem_inj_iff.mp hget)

variable {origin : Fin sent.length → Origin} {d : Decoder}

theorem Sound.new (gens : ℕ) : Sound origin (Decoder.new gens) := by
  intro j hactive
  rw [Decoder.new_slot] at hactive
  cases hactive

theorem Sound.stageOf (h : Sound origin d)
    (hids : Function.Injective fun g => (origin g).genId) (g : Fin sent.length) :
    ∃ S, d.StageOf (origin g) S := by
  by_cases hholds : d.Holds (origin g).genId
  · obtain ⟨g', S, hid, hsim⟩ := h _ hholds.1
    have hgid : (d.slots.getD (d.place (origin g).genId) {}).genId = (origin g).genId := hholds.2
    obtain rfl : g' = g := hids (hid.symm.trans hgid)
    exact ⟨S, fun _ => hsim, fun hnot => absurd hholds hnot⟩
  · exact ⟨Stage.empty, fun hd => absurd hd hholds, fun _ => rfl⟩

theorem Sound.expire (h : Sound origin d) (now ttl : ℕ) : Sound origin (d.expire now ttl) := by
  intro j hactive
  rcases d.expire_slot now ttl j with hslot | hslot
  · rw [hslot] at hactive
    cases hactive
  · rw [hslot] at hactive ⊢
    exact h j hactive

/-- Offers name frames of the generation. -/
theorem arrive_index_lt {n reason : ℕ} {S : Stage} {x : ℕ} {o : Offer}
    (ho : o ∈ (S.arrive n reason x).1) : o.index < n := by
  have hrec : ∀ S' : Stage, o ∈ (S'.recover n reason).1 → o.index < n := by
    intro S' ho
    rw [Stage.recover] at ho
    split at ho
    · obtain ⟨i, hi, rfl⟩ := List.mem_map.mp ho
      exact (Stage.mem_lost.mp hi).1
    · cases ho
  rw [Stage.arrive] at ho
  split at ho
  · next hx =>
    rcases List.mem_cons.mp ho with rfl | ho
    · exact hx
    · exact hrec _ ho
  · exact hrec _ ho

/-- **One shard, whatever the decoder has been through.** -/
theorem Sound.receive (h : Sound origin d) (hids : Function.Injective fun g => (origin g).genId)
    (hreason : ∀ g, (origin g).reason.toNat ≤ 2) (g : Fin sent.length) {x : ℕ}
    (hx : x < (origin g).n + (origin g).p) (now : ℕ) :
    ∃ d' published, d.receive record ((origin g).shard x) now [] = (true, d', published) ∧
      Sound origin d' ∧ ∀ q ∈ published, q.payload ∈ (origin g).encoder.frames := by
  obtain ⟨S, hstage⟩ := h.stageOf hids g
  obtain ⟨d', log, hrun, honly, -, hsim, hlog, -⟩ := Decoder.receive_shard (s := [])
    (hreason g) hstage (takes_record _) trivial hx now
  refine ⟨d', log, hrun, fun j hactive => ?_, fun q hq => ?_⟩
  · by_cases hj : j = d.place (origin g).genId
    · have hheld : d'.held (origin g).genId = d'.slots.getD j {} := by
        rw [Decoder.held, Decoder.place, honly.gens, hj]
        rfl
      rw [← hheld]
      exact ⟨g, _, hsim.genId, hsim⟩
    · rw [honly.slots j hj] at hactive ⊢
      exact h j hactive
  · rw [hlog, offerAll_record, List.nil_append] at hq
    obtain ⟨o, ho, rfl⟩ := List.mem_map.mp hq
    exact (origin g).frame_mem (arrive_index_lt ho)

end Sent

/-- **Soundness under any schedule.** Generations with different ids, closed by one encoder
configuration for the reasons zero to two, share a decoder with any number of slots. In
every sequence of arrivals of their shards and of expiries, `receive` returns true every time
and what it publishes are frames of the generation its shard names. -/
theorem published_genuine {k p : ℕ} (sent : List (Sent k p))
    (hids : (sent.map Sent.genId).Nodup) (hreason : ∀ s ∈ sent, s.reason.toNat ≤ 2) (gens : ℕ)
    (events : List (Arrival sent)) :
    ∀ o ∈ (Sent.run sent (Decoder.new gens) events).2,
      o.ok = true ∧ ∀ q ∈ o.published, q.payload ∈ (sent.get o.g).frames := by
  obtain ⟨origin, hinj, horigin⟩ := Sent.exists_origins hids hreason
  suffices hinv : Sent.Sound origin (Sent.run sent (Decoder.new gens) events).1 ∧
      ∀ o ∈ (Sent.run sent (Decoder.new gens) events).2,
        o.ok = true ∧ ∀ q ∈ o.published, q.payload ∈ (sent.get o.g).frames from hinv.2
  induction events using List.reverseRecOn with
  | nil => exact ⟨Sent.Sound.new gens, fun _ h => absurd h List.not_mem_nil⟩
  | append_singleton events e ih =>
    obtain ⟨hsound, houts⟩ := ih
    rw [Sent.run, List.foldl_append, List.foldl_cons, List.foldl_nil, ← Sent.run]
    cases e with
    | shard g x now =>
      obtain ⟨hx, hshard⟩ := Sent.shard_eq (horigin g).2.2.2.2 x.isLt
      obtain ⟨d', published, hrun, hsound', hgenuine⟩ := hsound.receive hinj
        (fun g => (horigin g).2.2.2.1) g hx now
      rw [Sent.step, hshard, hrun]
      refine ⟨hsound', fun o ho => ?_⟩
      rcases List.mem_append.mp ho with ho | ho
      · exact houts o ho
      · rw [List.mem_singleton.mp ho]
        exact ⟨rfl, fun q hq => (horigin g).2.1 ▸ hgenuine q hq⟩
    | expire now ttl => exact ⟨hsound.expire now ttl, houts⟩

/-- An encoder of generations of two frames, with one parity shard. -/
def inPairs : Encoder := .fresh 2 1 (by decide) (by decide)

/-- Two generations of two frames. -/
def samples : List (Sent 2 1) :=
  [⟨[[1#8], [2#8, 3#8]], 0, 0, _, rfl⟩, ⟨[[4#8, 5#8], [6#8]], 1, 2, _, rfl⟩]

/-- They fight over one slot: the second evicts the first, whose parity shard then comes
late, evicts the second and expires. -/
theorem eviction_keeps_genuine :
    let R := Sent.run samples (Decoder.new 1)
      [.shard ⟨0, by decide⟩ ⟨0, by decide⟩ 5, .shard ⟨1, by decide⟩ ⟨2, by decide⟩ 6,
        .shard ⟨1, by decide⟩ ⟨1, by decide⟩ 7, .shard ⟨0, by decide⟩ ⟨2, by decide⟩ 8,
        .expire 9 1]
    R.2.length = 4 ∧
      ∀ o ∈ R.2, o.ok = true ∧ ∀ q ∈ o.published, q.payload ∈ (samples.get o.g).frames :=
  ⟨by decide +kernel, published_genuine samples (by decide) (by decide) 1 _⟩

/-- With reason three `receive` returns false on a shard of the generation. -/
theorem reason_three_rejected :
    ∃ (sent : List (Sent 1 1)) (events : List (Arrival sent)), (sent.map Sent.genId).Nodup ∧
      ∃ o ∈ (Sent.run sent (Decoder.new 64) events).2, o.ok = false := by
  refine ⟨[⟨[[7#8]], 0, 3, _, rfl⟩], [.shard 0 ⟨1, by decide⟩ 5], by decide, ?_⟩
  exact ⟨⟨0, false, []⟩, by decide +kernel, rfl⟩

end Fec
end PulseFanout
