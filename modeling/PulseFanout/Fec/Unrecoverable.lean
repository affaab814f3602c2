import Mathlib.Data.Fintype.Basic
import PulseFanout.Framework.Machine
import PulseFanout.Fec.Erasure
import PulseFanout.Fec.Retirement

/-!
# Generations reported as lost

The flag that keeps a generation from being counted twice is in its slot, and is gone with it:
a late parity shard starts the generation anew, with nothing received, and it is counted again,
or for the first time although all its frames were published (`late_parity_overreported`).

`History` adds to the decoder what has happened: which frames were published, and which
generations were given up, with or without parity at hand. That `published` is what the callback
was handed is `published_grows`. `History.owed` are the generations `retired` is charged to.
While no shard comes late (`History.Timely`) each of them has a frame that was never published,
and `retired` is at most their number (`Accounted.step`): a generation that is given up stays
charged, and what the shard of another one does to its slot it does to both sides
(`Accounted.charge_shard`).
-/

namespace PulseFanout
namespace Fec

open Framework

/-! ### Histories -/

variable {ι : Type} [Fintype ι] [DecidableEq ι] (O : ι → Origin)

/-- What can happen to a decoder that the generations `O` share. -/
inductive Happening
  /-- Shard `x` of generation `g` arrives. -/
  | shard (g : ι) (x : Fin (O g).built.shards.length) (now : ℕ)
  /-- `expire` -/
  | expire (now ttl : ℕ)

/-- The frames of `O` marked as received in its slot. With a callback that never fails a frame is
marked when it is published. -/
def Decoder.marks (d : Decoder) (O : Origin) : Finset ℕ :=
  if d.Holds O.genId then (Finset.range O.n).filter fun i => (d.held O.genId).received.getD i false
  else ∅

/-- A decoder and what it has been through. -/
structure History (ι : Type) where
  decoder : Decoder
  /-- The frames of each generation that were published. -/
  published : ι → Finset ℕ
  /-- The generations whose slot was given up. -/
  past : Finset ι
  /-- Those whose slot had parity then. -/
  closed : Finset ι

namespace History

/-- The decoder is now `d`. A generation is given up when its slot held it before and does not
any more. -/
def after (T : History ι) (d : Decoder) : History ι :=
  { T with
    decoder := d
    past := T.past ∪ Finset.univ.filter fun g =>
      T.decoder.Holds (O g).genId ∧ ¬ d.Holds (O g).genId
    closed := T.closed ∪ Finset.univ.filter fun g =>
      T.decoder.Holds (O g).genId ∧ ¬ d.Holds (O g).genId ∧
        (T.decoder.held (O g).genId).parityReceived = true }

/-- The same, and frames of `g` were published. -/
def publish (T : History ι) (d : Decoder) (g : ι) (frames : Finset ℕ) : History ι :=
  { T.after O d with published := Function.update T.published g (T.published g ∪ frames) }

/-- One event. -/
def step (T : History ι) : Happening O → History ι
  | .shard g x now =>
    let d := (T.decoder.receive record ((O g).built.shards.getD x []) now []).2.1
    T.publish O d g (d.marks (O g))
  | .expire now ttl => T.after O (T.decoder.expire now ttl)

/-- No late shard: of a generation that was given up come data shards only, and once it was given
up with parity at hand only those of frames already published. -/
def Timely (T : History ι) : Happening O → Prop
  | .shard g x _ => g ∈ T.past → x.val < (O g).n ∧ (g ∈ T.closed → x.val ∈ T.published g)
  | .expire _ _ => True

instance (T : History ι) (e : Happening O) : Decidable (T.Timely O e) :=
  match e with
  | .shard _ _ _ => inferInstanceAs (Decidable (_ → _))
  | .expire _ _ => isTrue trivial

/-- The generations with a frame that was never published. -/
def lost (T : History ι) : Finset ι :=
  Finset.univ.filter fun g => ∃ i < (O g).n, i ∉ T.published g

/-- The generations `retire_all` would have reported: one is still to be counted, or it was given
up with parity at hand and a frame is lost. -/
def owed (T : History ι) : Finset ι :=
  Finset.univ.filter fun g =>
    T.decoder.Charged (O g).genId ∨ (g ∈ T.closed ∧ g ∈ T.lost O)

end History

/-- The runs of a decoder with `gens` slots. -/
def decoding (gens : ℕ) : Machine (History ι) (Happening O) where
  start := ⟨.new gens, fun _ => ∅, ∅, ∅⟩
  step T e := some (T.step O e)

/-! ### What one event does -/

namespace Decoder

/-- The slot of a generation is as it was, or does not hold it any more. -/
def Rests (d d' : Decoder) (genId : BitVec 32) : Prop :=
  d'.Holds genId → d'.held genId = d.held genId ∧ d.Holds genId

variable {d d' : Decoder} {O : Origin} {S : Stage}

theorem not_holds_new (gens : ℕ) (genId : BitVec 32) : ¬ (new gens).Holds genId := by
  rintro ⟨hactive, -⟩
  rw [held, new_slot] at hactive
  cases hactive

theorem marks_of_not_holds (h : ¬ d.Holds O.genId) : d.marks O = ∅ := if_neg h

theorem retired_new (gens : ℕ) : (new gens).retired = 0 := by
  rw [retired_eq, new, List.countP_replicate]
  rfl

theorem StageOf.held_sub (h : d.StageOf O S) : S.held ⊆ Finset.range O.n := by
  by_cases hholds : d.Holds O.genId
  · exact fun i hi => Finset.mem_range.mpr ((h.sim hholds).held_lt i hi)
  · rw [h.fresh hholds]
    exact Finset.empty_subset _

theorem StageOf.marks_eq (h : d.StageOf O S) : d.marks O = S.held := by
  by_cases hholds : d.Holds O.genId
  · rw [marks, if_pos hholds]
    ext i
    rw [Finset.mem_filter, (h.sim hholds).received, decide_eq_true_eq, Finset.mem_range]
    exact ⟨And.right, fun hi => ⟨(h.sim hholds).held_lt i hi, hi⟩⟩
  · rw [marks_of_not_holds hholds, h.fresh hholds]
    rfl

theorem Rests.stageOf (hrest : d.Rests d' O.genId) (h : d.StageOf O S) :
    ∃ S', d'.StageOf O S' := by
  by_cases hholds' : d'.Holds O.genId
  · obtain ⟨hheld, hholds⟩ := hrest hholds'
    refine ⟨S, fun _ => ?_, fun hnot => absurd hholds' hnot⟩
    rw [hheld]
    exact h.sim hholds
  · exact ⟨.empty, fun hd => absurd hd hholds', fun _ => rfl⟩

theorem Rests.marks_sub (hrest : d.Rests d' O.genId) : d'.marks O ⊆ d.marks O := by
  by_cases hholds' : d'.Holds O.genId
  · obtain ⟨hheld, hholds⟩ := hrest hholds'
    rw [marks, marks, if_pos hholds, if_pos hholds', hheld]
  · rw [marks_of_not_holds hholds']
    exact Finset.empty_subset _

theorem Rests.marks_eq (hrest : d.Rests d' O.genId) (hkept : d.Holds O.genId → d'.Holds O.genId) :
    d'.marks O = d.marks O := by
  by_cases hholds' : d'.Holds O.genId
  · obtain ⟨hheld, hholds⟩ := hrest hholds'
    rw [marks, marks, if_pos hholds, if_pos hholds', hheld]
  · rw [marks_of_not_holds hholds', marks_of_not_holds (mt hkept hholds')]

/-- Only a generation with parity is counted. -/
theorem Charged.parityReceived {genId : BitVec 32} (h : d.Charged genId) :
    (d.held genId).parityReceived = true := by
  have hcounted := h.2
  by_contra hnone
  rw [Bool.not_eq_true] at hnone
  rw [Generation.unrecoverable, hnone] at hcounted
  simp at hcounted

/-- A counted generation that rests is still counted, or was given up. -/
theorem Rests.charged {genId : BitVec 32} (hrest : d.Rests d' genId) (h : d.Charged genId) :
    d'.Charged genId ∨ ¬ d'.Holds genId := by
  by_cases hholds' : d'.Holds genId
  · refine .inl ⟨hholds', ?_⟩
    rw [(hrest hholds').1]
    exact h.2
  · exact .inr hholds'

/-- A counted generation is short of a frame. -/
theorem StageOf.lost_of_charged (h : d.StageOf O S) (hcharged : d.Charged O.genId) :
    ∃ i < O.n, i ∉ S.held := by
  have hsim := h.sim hcharged.1
  have hrows : S.rows.Nonempty := by
    have hparity := hcharged.parityReceived
    rw [hsim.parityReceived] at hparity
    exact of_decide_eq_true hparity
  have hcounted := hcharged.2
  rw [Generation.unrecoverable, Bool.and_eq_true, List.any_eq_true] at hcounted
  obtain ⟨-, i, hi, hmissing⟩ := hcounted
  rw [hsim.k_of_rows hrows, List.mem_range] at hi
  rw [hsim.received, Bool.not_eq_true', decide_eq_false_iff_not] at hmissing
  exact ⟨i, hi, hmissing⟩

/-- **What a shard of `O` does**, from stage `S` to stage `S'`, with the frames `offers` handed to
the callback. -/
structure Absorbs (O : Origin) (x : ℕ) (d d' : Decoder) (S S' : Stage) (offers : List Offer) :
    Prop where
  stage : d'.StageOf O S'
  /-- The shard does not give its own generation up. -/
  kept : d.Holds O.genId → d'.Holds O.genId
  /-- Another generation may lose its slot to it. -/
  others : ∀ genId, genId ≠ O.genId → d.Rests d' genId
  held : S'.held = S.held ∪ (offers.map Offer.index).toFinset
  /-- Without parity at hand a data shard publishes itself only. -/
  bare : x < O.n → S.rows = ∅ → S'.held = insert x S.held ∧ S'.rows = ∅
  retired : d'.retired + (if d.Charged O.genId then 1 else 0) =
    d.retired + if d'.Charged O.genId then 1 else 0

theorem receive_absorbs (hstage : d.StageOf O S) {x : ℕ} (hx : x < O.n + O.p) (now : ℕ) :
    ∃ ok d' S' offers,
      d.receive record (O.shard x) now [] = (ok, d', offers.map O.publication) ∧
        Absorbs O x d d' S S' offers := by
  by_cases hknown : x < O.n ∨ O.reason.toNat ≤ 2
  · have haccepts : Accepts record (fun _ => True) O d S [] x now := by
      by_cases hdata : x < O.n
      · exact receive_dataShard hstage (takes_record O) trivial hdata now
      · exact receive_shard (hknown.resolve_left hdata) hstage (takes_record O) trivial hx now
    obtain ⟨d', log, hrun, honly, hholds, hsim, hlog, -⟩ := haccepts
    rw [offerAll_record, List.nil_append] at hlog
    refine ⟨true, d', (S.arrive O.n O.reason.toNat x).2, _, by rw [hrun, hlog], ?_⟩
    constructor
    case stage => exact ⟨fun _ => hsim, fun hnot => absurd hholds hnot⟩
    case kept => exact fun _ => hholds
    case others => exact fun genId hne hholds' => Holds.of_onlySlot honly hholds hne.symm hholds'
    case held => exact Stage.arrive_held hstage.held_sub x
    case bare =>
      intro hdata hrows
      rw [Stage.arrive_of_no_rows hrows hdata]
      exact ⟨rfl, hrows⟩
    case retired =>
      exact d.retired_receive record now [] (O.shard_genId x) (by rw [hrun]) hholds
  · -- a parity shard with a close reason the decoder does not know
    rw [not_or, Nat.not_le] at hknown
    refine ⟨false, d, S, [], receive_unknownReason hknown.2 hknown.1 now, ?_⟩
    constructor
    case stage => exact hstage
    case kept => exact id
    case others => exact fun genId _ hholds => ⟨rfl, hholds⟩
    case held => simp
    case bare => exact fun hdata => absurd hdata hknown.1
    case retired => rfl

theorem rests_expire (d : Decoder) (now ttl : ℕ) (genId : BitVec 32) :
    d.Rests (d.expire now ttl) genId := Holds.of_expire

end Decoder

/-! ### Along a run -/

variable {O} {T : History ι}

namespace History

theorem mem_past_after {d : Decoder} {g : ι} : g ∈ (T.after O d).past ↔
    g ∈ T.past ∨ (T.decoder.Holds (O g).genId ∧ ¬ d.Holds (O g).genId) := by
  simp [after]

theorem mem_closed_after {d : Decoder} {g : ι} : g ∈ (T.after O d).closed ↔
    g ∈ T.closed ∨ (T.decoder.Holds (O g).genId ∧ ¬ d.Holds (O g).genId ∧
      (T.decoder.held (O g).genId).parityReceived = true) := by
  simp [after]

omit [DecidableEq ι] in
theorem mem_lost {g : ι} : g ∈ T.lost O ↔ ∃ i < (O g).n, i ∉ T.published g := by
  simp [lost]

theorem mem_owed {g : ι} : g ∈ T.owed O ↔
    T.decoder.Charged (O g).genId ∨ (g ∈ T.closed ∧ g ∈ T.lost O) := by
  simp [owed]

theorem publish_self (d : Decoder) (g : ι) (frames : Finset ℕ) :
    (T.publish O d g frames).published g = T.published g ∪ frames :=
  Function.update_self ..

theorem publish_of_ne {g g' : ι} (h : g' ≠ g) (d : Decoder) (frames : Finset ℕ) :
    (T.publish O d g frames).published g' = T.published g' :=
  Function.update_of_ne h ..

/-- What holds in every history: each generation is at some stage, and what its slot has was
published. -/
structure Seen (O : ι → Origin) (T : History ι) : Prop where
  stage : ∀ g, ∃ S, T.decoder.StageOf (O g) S
  marked : ∀ g, T.decoder.marks (O g) ⊆ T.published g

/-- The event of a shard, as the decoder takes it. -/
theorem Seen.absorbs (h : Seen O T) (g : ι) (x : Fin (O g).built.shards.length) (now : ℕ) :
    ∃ d' S S' offers, T.decoder.StageOf (O g) S ∧
      (T.decoder.receive record ((O g).built.shards.getD x []) now []).2 =
        (d', offers.map (O g).publication) ∧
      Decoder.Absorbs (O g) x T.decoder d' S S' offers ∧
      T.step O (.shard g x now) = T.publish O d' g S'.held := by
  obtain ⟨S, hstage⟩ := h.stage g
  have hx : x.val < (O g).n + (O g).p := x.isLt.trans_eq (O g).shards_length
  obtain ⟨ok, d', S', offers, hrun, habsorbs⟩ := Decoder.receive_absorbs hstage hx now
  rw [← shards_getD (O g) hx] at hrun
  refine ⟨d', S, S', offers, hstage, by rw [hrun], habsorbs, ?_⟩
  rw [step, hrun, habsorbs.stage.marks_eq]

/-- One event. -/
theorem Seen.step (h : Seen O T) (hids : Function.Injective fun g => (O g).genId)
    (e : Happening O) : Seen O (T.step O e) := by
  cases e with
  | shard g x now =>
    obtain ⟨d', S, S', offers, hstage, -, habsorbs, hstep⟩ := h.absorbs g x now
    rw [hstep]
    constructor
    · intro g'
      by_cases hg : g' = g
      · subst hg
        exact ⟨S', habsorbs.stage⟩
      -- another generation keeps its stage, or has lost its slot and starts from nothing
      · obtain ⟨S₀, hS₀⟩ := h.stage g'
        exact (habsorbs.others _ (hids.ne hg)).stageOf hS₀
    · intro g'
      by_cases hg : g' = g
      · subst hg
        rw [publish_self, ← habsorbs.stage.marks_eq]
        exact Finset.subset_union_right
      · rw [publish_of_ne hg]
        exact (habsorbs.others _ (hids.ne hg)).marks_sub.trans (h.marked g')
  | expire now ttl =>
    have hrests := fun g => T.decoder.rests_expire now ttl (O g).genId
    constructor
    · intro g
      obtain ⟨S, hS⟩ := h.stage g
      exact (hrests g).stageOf hS
    · intro g
      exact (hrests g).marks_sub.trans (h.marked g)

end History

theorem seen_of_reachable (hids : Function.Injective fun g => (O g).genId) {gens : ℕ}
    (hT : (decoding O gens).Reachable T) : History.Seen O T := by
  refine hT.invariant ?_ ?_
  · have hfresh := fun g => Decoder.not_holds_new gens (O g).genId
    refine ⟨fun g => ⟨.empty, fun hholds => absurd hholds (hfresh g), fun _ => rfl⟩, fun g => ?_⟩
    exact (Decoder.marks_of_not_holds (hfresh g)).subset
  · intro T e T' hseen hstep
    cases hstep
    exact hseen.step hids e

/-- **`published` is what the callback was handed.** In every run, the payloads published while a
shard is received are frames of its generation, and `published` grows by just these. -/
theorem published_grows (hids : Function.Injective fun g => (O g).genId) {gens : ℕ}
    (hT : (decoding O gens).Reachable T) (g : ι) (x : Fin (O g).built.shards.length) (now : ℕ) :
    ∃ indices : List ℕ,
      (T.decoder.receive record ((O g).built.shards.getD x []) now []).2.2.map
          Publication.payload = indices.map (O g).frame ∧
        (T.step O (.shard g x now)).published =
          Function.update T.published g (T.published g ∪ indices.toFinset) := by
  have hseen := seen_of_reachable hids hT
  obtain ⟨d', S, S', offers, hstage, hrun, habsorbs, hstep⟩ := hseen.absorbs g x now
  refine ⟨offers.map Offer.index, ?_, ?_⟩
  · rw [hrun, List.map_map, List.map_map]
    rfl
  · have hmarked := hseen.marked g
    rw [hstage.marks_eq] at hmarked
    rw [hstep, History.publish, habsorbs.held, ← Finset.union_assoc,
      Finset.union_eq_left.mpr hmarked]

namespace History

/-- What holds while no shard comes late. -/
structure Accounted (O : ι → Origin) (T : History ι) : Prop where
  /-- What is published of a generation never given up is in its slot. -/
  whole : ∀ g ∉ T.past, T.decoder.marks (O g) = T.published g
  /-- No parity of a generation came after it was given up. -/
  bare : ∀ g ∈ T.past, T.decoder.Holds (O g).genId →
    (T.decoder.held (O g).genId).parityReceived = false
  closed_sub : T.closed ⊆ T.past
  /-- What `retire_all` would report is charged to different generations. -/
  charged : T.decoder.retired ≤ (T.owed O).card

/-- After it was given up a generation is not counted. -/
theorem Accounted.not_charged (h : Accounted O T) {g : ι} (hg : g ∈ T.past) :
    ¬ T.decoder.Charged (O g).genId := by
  intro hcharged
  have hparity := hcharged.parityReceived
  rw [h.bare g hg hcharged.1] at hparity
  cases hparity

/-- A generation that is still to be counted has lost a frame. -/
theorem Accounted.lost_of_charged (h : Accounted O T) (hseen : Seen O T) {g : ι}
    (hcharged : T.decoder.Charged (O g).genId) : g ∈ T.lost O := by
  -- its slot has parity, so it was never given up, and the slot shows all that was published
  have hg : g ∉ T.past := fun hg => h.not_charged hg hcharged
  obtain ⟨S, hstage⟩ := hseen.stage g
  rw [mem_lost, ← h.whole g hg, hstage.marks_eq]
  exact hstage.lost_of_charged hcharged

/-- So has everything that `retire_all` would have reported. -/
theorem Accounted.owed_sub (h : Accounted O T) (hseen : Seen O T) : T.owed O ⊆ T.lost O := by
  intro g hg
  rcases mem_owed.mp hg with hcharged | ⟨-, hlost⟩
  · exact h.lost_of_charged hseen hcharged
  · exact hlost

section Step

variable {d' : Decoder} {g : ι}

theorem Accounted.whole_of_rests (h : Accounted O T) (hrest : T.decoder.Rests d' (O g).genId)
    (hg : g ∉ (T.after O d').past) : d'.marks (O g) = T.published g := by
  rw [mem_past_after, not_or, not_and, not_not] at hg
  rw [hrest.marks_eq hg.2]
  exact h.whole g hg.1

theorem Accounted.bare_of_rests (h : Accounted O T) (hrest : T.decoder.Rests d' (O g).genId)
    (hg : g ∈ (T.after O d').past) (hholds : d'.Holds (O g).genId) :
    (d'.held (O g).genId).parityReceived = false := by
  obtain ⟨hheld, hbefore⟩ := hrest hholds
  rcases mem_past_after.mp hg with hpast | ⟨-, hnot⟩
  · rw [hheld]
    exact h.bare g hpast hbefore
  · exact absurd hholds hnot

theorem Accounted.closed_sub_after (h : Accounted O T) (d' : Decoder) :
    (T.after O d').closed ⊆ (T.after O d').past := by
  intro g hg
  rcases mem_closed_after.mp hg with hclosed | ⟨hheld, hnot, -⟩
  · exact mem_past_after.mpr (.inl (h.closed_sub hclosed))
  · exact mem_past_after.mpr (.inr ⟨hheld, hnot⟩)

/-- A generation that rests stays charged: if its slot is given up, with parity at hand, then it is
counted and its frame is lost. -/
theorem Accounted.owed_of_rests (h : Accounted O T) (hseen : Seen O T)
    (hrest : T.decoder.Rests d' (O g).genId) (hg : g ∈ T.owed O) :
    d'.Charged (O g).genId ∨ (g ∈ (T.after O d').closed ∧ g ∈ T.lost O) := by
  have hlost := h.owed_sub hseen hg
  rcases mem_owed.mp hg with hcharged | ⟨hclosed, -⟩
  · rcases hrest.charged hcharged with hstill | hnot
    · exact .inl hstill
    · exact .inr ⟨mem_closed_after.mpr (.inr ⟨hcharged.1, hnot, hcharged.parityReceived⟩), hlost⟩
  · exact .inr ⟨mem_closed_after.mpr (.inl hclosed), hlost⟩

theorem Accounted.expire (h : Accounted O T) (hseen : Seen O T) (now ttl : ℕ) :
    Accounted O (T.step O (.expire now ttl)) := by
  have hrests := fun g => T.decoder.rests_expire now ttl (O g).genId
  constructor
  case whole => exact fun g hg => h.whole_of_rests (hrests g) hg
  case bare => exact fun g hg hholds => h.bare_of_rests (hrests g) hg hholds
  case closed_sub => exact h.closed_sub_after _
  case charged =>
    calc (T.decoder.expire now ttl).retired = T.decoder.retired := T.decoder.retired_expire now ttl
      _ ≤ (T.owed O).card := h.charged
      _ ≤ _ := Finset.card_le_card fun g hg =>
        mem_owed.mpr (h.owed_of_rests hseen (hrests g) hg)

theorem one_le_one_of_imp {p q : Prop} [Decidable p] [Decidable q] (h : p → q) :
    (if p then 1 else 0) ≤ if q then 1 else 0 := by
  split_ifs with hp hq
  · exact le_rfl
  · exact absurd (h hp) hq
  · exact Nat.zero_le 1
  · exact le_rfl

omit [Fintype ι] in
theorem card_erase_add (A : Finset ι) (g : ι) :
    (A.erase g).card + (if g ∈ A then 1 else 0) = A.card := by
  split_ifs with hg
  · exact Finset.card_erase_add_one hg
  · rw [Finset.erase_eq_of_notMem hg, Nat.add_zero]

omit [Fintype ι] in
/-- Two sets that agree but for one element and what the second has more. -/
theorem card_le_of_others {A B : Finset ι} (h : ∀ g', g' ≠ g → g' ∈ A → g' ∈ B) :
    A.card + (if g ∈ B then 1 else 0) ≤ B.card + if g ∈ A then 1 else 0 := by
  have hsub : A.erase g ⊆ B.erase g := by
    intro g' hg'
    rw [Finset.mem_erase] at hg' ⊢
    exact ⟨hg'.1, h g' hg'.1 hg'.2⟩
  have hcard := Finset.card_le_card hsub
  have hA := card_erase_add A g
  have hB := card_erase_add B g
  omega

variable {x : ℕ} {S S' : Stage} {offers : List Offer}

/-- A late data shard finds no parity. -/
theorem Accounted.bare_shard (h : Accounted O T) (hg : g ∈ T.past)
    (hstage : T.decoder.StageOf (O g) S)
    (habsorbs : Decoder.Absorbs (O g) x T.decoder d' S S' offers) (hx : x < (O g).n) :
    S'.held = insert x S.held ∧ S'.rows = ∅ := by
  refine habsorbs.bare hx ?_
  by_cases hholds : T.decoder.Holds (O g).genId
  · have hparity := h.bare g hg hholds
    rw [(hstage.sim hholds).parityReceived, decide_eq_false_iff_not,
      Finset.not_nonempty_iff_eq_empty] at hparity
    exact hparity
  · rw [hstage.fresh hholds]
    rfl

/-- The slot of the shard's generation changes what is reported and what is owed alike. -/
theorem Accounted.charge_shard (h : Accounted O T) (hseen : Seen O T)
    (hstage : T.decoder.StageOf (O g) S)
    (habsorbs : Decoder.Absorbs (O g) x T.decoder d' S S' offers)
    (htimely : g ∈ T.past → x < (O g).n ∧ (g ∈ T.closed → x ∈ T.published g)) :
    (if g ∈ T.owed O then 1 else 0) + (if d'.Charged (O g).genId then 1 else 0) ≤
      (if g ∈ (T.publish O d' g S'.held).owed O then 1 else 0) +
        if T.decoder.Charged (O g).genId then 1 else 0 := by
  by_cases hg : g ∈ T.past
  · -- a late data shard: no parity before it or after it, and nothing new if one is owed
    obtain ⟨hheld, hrows⟩ := h.bare_shard hg hstage habsorbs (htimely hg).1
    have hafter : ¬ d'.Charged (O g).genId := by
      intro hcharged
      have hparity := hcharged.parityReceived
      rw [(habsorbs.stage.sim hcharged.1).parityReceived, hrows] at hparity
      cases hparity
    have howed : g ∈ T.owed O → g ∈ (T.publish O d' g S'.held).owed O := by
      intro howed
      obtain ⟨hclosed, hlost⟩ := (mem_owed.mp howed).resolve_left (h.not_charged hg)
      have hsame : T.published g ∪ S'.held = T.published g := by
        have hmarked := hseen.marked g
        rw [hstage.marks_eq] at hmarked
        rw [hheld, Finset.union_eq_left]
        exact Finset.insert_subset ((htimely hg).2 hclosed) hmarked
      rw [mem_owed, mem_lost, publish_self, hsame, ← mem_lost]
      exact .inr ⟨mem_closed_after.mpr (.inl hclosed), hlost⟩
    rw [if_neg hafter, if_neg (h.not_charged hg)]
    exact one_le_one_of_imp howed
  · -- it was never given up, so it is owed only while its slot is to be counted
    have hbefore : g ∈ T.owed O ↔ T.decoder.Charged (O g).genId := by
      rw [mem_owed]
      exact or_iff_left fun hclosed => hg (h.closed_sub hclosed.1)
    have hafter : d'.Charged (O g).genId → g ∈ (T.publish O d' g S'.held).owed O :=
      fun hcharged => mem_owed.mpr (.inl hcharged)
    simp only [hbefore]
    rw [Nat.add_comm]
    exact Nat.add_le_add_right (one_le_one_of_imp hafter) _

theorem Accounted.shard (h : Accounted O T) (hseen : Seen O T)
    (hids : Function.Injective fun g => (O g).genId) (g : ι)
    (x : Fin (O g).built.shards.length) (now : ℕ) (htimely : T.Timely O (.shard g x now)) :
    Accounted O (T.step O (.shard g x now)) := by
  obtain ⟨d', S, S', offers, hstage, -, habsorbs, hstep⟩ := hseen.absorbs g x now
  rw [hstep]
  have hrests : ∀ g', g' ≠ g → T.decoder.Rests d' (O g').genId :=
    fun g' hg' => habsorbs.others _ (hids.ne hg')
  -- the shard's own generation is not given up by it
  have hpast : g ∈ (T.after O d').past ↔ g ∈ T.past := by
    rw [mem_past_after]
    exact or_iff_left fun hgiven => hgiven.2 (habsorbs.kept hgiven.1)
  constructor
  case whole =>
    intro g' hg'
    by_cases hsame : g' = g
    · subst hsame
      have hmarks := h.whole g' fun hg => hg' (hpast.mpr hg)
      rw [publish_self, ← hmarks, hstage.marks_eq, habsorbs.held, ← Finset.union_assoc,
        Finset.union_self, ← habsorbs.held]
      exact habsorbs.stage.marks_eq
    · rw [publish_of_ne hsame]
      exact h.whole_of_rests (hrests g' hsame) hg'
  case bare =>
    intro g' hg' hholds
    by_cases hsame : g' = g
    · subst hsame
      have hg := hpast.mp hg'
      obtain ⟨-, hrows⟩ := h.bare_shard hg hstage habsorbs (htimely hg).1
      show (d'.held (O g').genId).parityReceived = false
      rw [(habsorbs.stage.sim hholds).parityReceived, hrows]
      rfl
    · exact h.bare_of_rests (hrests g' hsame) hg' hholds
  case closed_sub => exact h.closed_sub_after d'
  case charged =>
    -- the other generations are owed as before, and the shard's own moves with its slot
    have hothers : ∀ g', g' ≠ g → g' ∈ T.owed O → g' ∈ (T.publish O d' g S'.held).owed O := by
      intro g' hg' howed
      rw [mem_owed, mem_lost, publish_of_ne hg', ← mem_lost]
      exact h.owed_of_rests hseen (hrests g' hg') howed
    have hcard := card_le_of_others hothers
    have hown := h.charge_shard hseen hstage habsorbs htimely
    have hretired := habsorbs.retired
    have hcharged := h.charged
    show d'.retired ≤ _
    omega

/-- **One event.** -/
theorem Accounted.step (h : Accounted O T) (hseen : Seen O T)
    (hids : Function.Injective fun g => (O g).genId) (e : Happening O)
    (htimely : T.Timely O e) : Accounted O (T.step O e) := by
  cases e with
  | shard g x now => exact h.shard hseen hids g x now htimely
  | expire now ttl => exact h.expire hseen now ttl

end Step

end History

/-- **Along a run** in which no shard comes late. -/
theorem accounted_of_reachable (hids : Function.Injective fun g => (O g).genId) {gens : ℕ}
    (hT : ((decoding O gens).only fun T e => T.Timely O e).Reachable T) :
    History.Accounted O T := by
  refine hT.induction ?_ ?_
  · constructor
    case whole =>
      intro g _
      exact Decoder.marks_of_not_holds (Decoder.not_holds_new gens (O g).genId)
    case bare => exact fun g hg => absurd hg (Finset.notMem_empty g)
    case closed_sub => exact Finset.Subset.refl _
    case charged => exact (Decoder.retired_new gens).trans_le (Nat.zero_le _)
  · intro T e T' hreach h hstep
    obtain ⟨htimely, hmove⟩ := Machine.only_step hstep
    cases hmove
    exact h.step (seen_of_reachable hids hreach.of_only) hids e htimely

/-- **Unrecoverable generations are not over-reported** while no shard comes late. Generations
with different ids share a decoder with any number of slots. In every run in which a generation
whose slot was given up is not heard of again, but for its data shards, and those of frames
already published if it was given up with parity at hand, the counter is at most the number of
generations with a frame that was never published: now, and if all slots are retired. A frame is
published when the callback is handed it. -/
theorem reported_at_most_lost (O : ι → Origin) (hids : Function.Injective fun g => (O g).genId)
    (gens : ℕ) {T : History ι}
    (hT : ((decoding O gens).only fun T e => T.Timely O e).Reachable T) :
    T.decoder.stats.counters.unrecoverableGens ≤ (T.lost O).card ∧
      T.decoder.retireAll.stats.counters.unrecoverableGens ≤ (T.lost O).card ∧
      ∀ (g : ι) (x : Fin (O g).built.shards.length) (now : ℕ), ∃ indices : List ℕ,
        (T.decoder.receive record ((O g).built.shards.getD x []) now []).2.2.map
            Publication.payload = indices.map (O g).frame ∧
          (T.step O (.shard g x now)).published =
            Function.update T.published g (T.published g ∪ indices.toFinset) := by
  have h := accounted_of_reachable hids hT
  have hseen := seen_of_reachable hids hT.of_only
  have hretired : T.decoder.retired ≤ (T.lost O).card :=
    h.charged.trans (Finset.card_le_card (h.owed_sub hseen))
  refine ⟨le_trans ?_ hretired, hretired, published_grows hids hT.of_only⟩
  rw [Decoder.retired_eq]
  exact Nat.le_add_right _ _

/-- Two frames of one byte, with one parity shard. -/
def twoFrames (genId : BitVec 32) : Origin where
  encoder :=
    { inPairs with
      maxLen := 1
      frames := [[7#8], [9#8]]
      frames_le := by decide
      frame_range := by decide
      maxLen_eq := rfl }
  genId := genId
  reason := 0
  nonempty := List.cons_ne_nil _ _

/-- Two generations. -/
def pair (g : Fin 2) : Origin := twoFrames (.ofNat 32 g)

/-- They share one slot. Of the first only the parity comes before it is evicted; the second is
complete, and one of its frames comes again after it has expired. -/
def evicting : List (Happening pair) :=
  [.shard 0 ⟨2, by decide⟩ 5, .shard 1 ⟨0, by decide⟩ 6, .shard 1 ⟨1, by decide⟩ 7,
    .expire 1000000006 Decoder.defaultTtl, .shard 1 ⟨0, by decide⟩ 1000000007]

theorem evicted_generation_reported : ∃ T : History (Fin 2),
    T.lost pair = {0} ∧ T.decoder.retireAll.stats.counters.unrecoverableGens = 1 ∧
      T.decoder.stats.counters.unrecoverableGens ≤ 1 := by
  let M := (decoding pair 1).only fun T e => T.Timely pair e
  obtain ⟨T, hT⟩ := Option.isSome_iff_exists.mp
    (by decide +kernel : (M.run M.start evicting).isSome = true)
  have hlost : T.lost pair = {0} := Machine.read_run hT (History.lost pair) (by decide +kernel)
  have hretired : T.decoder.retireAll.stats.counters.unrecoverableGens = 1 :=
    Machine.read_run hT (fun T => T.decoder.retireAll.stats.counters.unrecoverableGens)
      (by decide +kernel)
  have hbound := reported_at_most_lost pair (by decide) 1 ⟨evicting, hT⟩
  rw [hlost, Finset.card_singleton] at hbound
  exact ⟨T, hlost, hretired, hbound.1⟩

/-- One generation. -/
def single (_ : Fin 1) : Origin := twoFrames 0

/-- All its shards come, it expires, and a copy of its parity shard comes late. -/
def copiedParity : List (Happening single) :=
  [.shard 0 ⟨0, by decide⟩ 5, .shard 0 ⟨1, by decide⟩ 6, .shard 0 ⟨2, by decide⟩ 7,
    .expire 1000000005 Decoder.defaultTtl, .shard 0 ⟨2, by decide⟩ 1000000006]

/-- The copy starts the generation anew, with nothing received, and it is reported as
unrecoverable although both frames were published. -/
theorem late_parity_overreported : ∃ T : History (Fin 1),
    (decoding single 64).run (decoding single 64).start copiedParity = some T ∧
      T.published 0 = {0, 1} ∧ T.lost single = ∅ ∧
      T.decoder.retireAll.stats.counters.unrecoverableGens = 1 := by
  let M := decoding single 64
  obtain ⟨T, hT⟩ := Option.isSome_iff_exists.mp
    (by decide +kernel : (M.run M.start copiedParity).isSome = true)
  refine ⟨T, hT, ?_, ?_, ?_⟩
  · exact Machine.read_run hT (fun T => T.published 0) (by decide +kernel)
  · exact Machine.read_run hT (History.lost single) (by decide +kernel)
  · exact Machine.read_run hT (fun T => T.decoder.retireAll.stats.counters.unrecoverableGens)
      (by decide +kernel)

end Fec
end PulseFanout
