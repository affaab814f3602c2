import PulseFanout.Fec.Alike
import PulseFanout.Fec.Safety

/-!
# What a rejected shard leaves behind

A shard that `receive` rejects, with no frame published, should leave the decoder as if it had never
come. `Decoder.Alike` says what that is: the same generations, up to what is only counted and the
time of the first shard, and so the same answers to everything that comes later (`Alike.heard`).

It is not so for every shard. `receive` takes the slot first and asks the callback afterwards, so a
shard of a generation that the slot does not hold evicts what it holds even if the callback then
refuses its frame; and a parity shard is stored before the frames it recovers are checked, so a
parity of any content stays, with its closure and its width, and turns the genuine one away
(`garbage_parity_stays`). What is true is `rejected_leaves_alike`: the shards `Spared` names, and no
others, leave nothing behind. These are the shards refused by their envelope, those for a slot that
holds their generation and carry data, and the parity shards that are turned away by what is stored
already or that repeat it.
-/

namespace PulseFanout
namespace Fec

open Framework

variable {σ : Type}

/-! ### Frames the callback took -/

/-- The callback, with a count of the frames it took. -/
def counting (publish : Publish σ) : Publish (σ × ℕ) := fun frame recovered reason s =>
  match publish frame recovered reason s.1 with
  | (true, out) => (true, out, s.2 + 1)
  | (false, out) => (false, out, s.2)

/-- How many frames the callback takes during a call of `receive`. -/
def Decoder.published (d : Decoder) (publish : Publish σ) (data : List Byte) (now : ℕ) (s : σ) :
    ℕ :=
  (d.receive (counting publish) data now (s, 0)).2.2.2

/-- The count is not seen by the decoder. -/
theorem counting_answers (publish : Publish σ) :
    Answers publish (counting publish) fun s t => t.1 = s := by
  rintro frame recovered reason s ⟨t, n⟩ rfl
  unfold counting
  generalize publish frame recovered reason t = answer
  obtain ⟨ok, out⟩ := answer
  cases ok
  · exact ⟨rfl, rfl⟩
  · exact ⟨rfl, rfl⟩

/-- A frame once taken stays counted. -/
theorem counting_keeps (publish : Publish σ) : Keeps (counting publish) fun s => 0 < s.2 := by
  intro frame recovered reason s hs
  unfold counting
  split
  · exact Nat.succ_pos _
  · exact hs

/-- The frames are published one after the other, so where none was taken the first was refused. -/
theorem publishRecovered_none (publish : Publish σ) {blocks : List (ℕ × List Byte)}
    {W W' : Work (σ × ℕ)} (hrun : publishRecovered (counting publish) blocks W = (false, W'))
    (hnone : W'.out.2 = 0) : W'.gen = W.gen := by
  cases blocks with
  | nil => cases hrun
  | cons b blocks =>
    have hmore := (counting_keeps publish).publishRecovered blocks
    unfold publishRecovered at hrun
    dsimp only at hrun
    generalize hanswer : counting publish _ true W.gen.closeReason W.out = answer at hrun
    obtain ⟨ok, out⟩ := answer
    cases ok with
    | false =>
      cases hrun
      rfl
    | true =>
      -- the first frame was taken, and the count does not go back
      have htaken : 0 < out.2 := by
        unfold counting at hanswer
        split at hanswer
        · cases hanswer
          exact Nat.succ_pos _
        · cases hanswer
      have hlast : W'.out.2 = (publishRecovered (counting publish) blocks _).2.out.2 :=
        congrArg (fun r => r.2.out.2) hrun.symm
      rw [hlast] at hnone
      exact absurd hnone (hmore _ htaken).ne'

/-! ### The shards that leave nothing behind -/

/-- A parity shard that is turned away by what is stored, or repeats it. -/
def Generation.turnsAway (g : Generation) (e : Envelope) (payload : List Byte) : Prop :=
  conflictsParity e g ∨ g.otherWidth payload = true ∨
    g.parities.getD (e.index.toNat - e.k.toNat) [] = payload

/-- What is true of the datagram and the slot it goes to before the call. -/
def Spared (d : Decoder) (data : List Byte) : Prop :=
  (data.length < kEnvelopeSize ∨ (readEnvelope data).magic ≠ kMagic) ∨
    badEnvelope (readEnvelope data) (data.drop kEnvelopeSize) ∨
    (d.Holds (readEnvelope data).genId ∧ ((readEnvelope data).parityCount = 0 ∨
      (d.held (readEnvelope data).genId).turnsAway (readEnvelope data) (data.drop kEnvelopeSize)))

section OneGeneration

variable {g : Generation} {e : Envelope} {payload : List Byte} {now : ℕ}

/-- `ensure` does nothing to a generation that is no larger. -/
theorem Safe.ensure_same (h : Safe g) {k : ℕ} (hk : g.k ≤ k) : g.ensure k = g := by
  have hpos := h.k_pos
  have hsized := h.sized
  have hlengths := h.lengths
  rw [g.ensure_eq k hlengths, if_neg (by omega), Nat.sub_eq_zero_of_le hsized,
    Nat.sub_eq_zero_of_le (hlengths ▸ hsized)]
  simp

/-- Noting the time changes nothing else. -/
theorem Generation.alike_touch (g : Generation) (now : ℕ) :
    g.Alike (g.firstNs ≠ 0) False (g.touch now) :=
  ⟨true, _, rfl, fun hne => if_neg hne, False.elim⟩

/-- A closure that agrees with a stored one writes what is there. -/
theorem Safe.close_same (h : Safe g) (hno : ¬ conflictsParity e g) {row : ℕ}
    (hstored : g.parities.getD row [] ≠ []) : g.close e now = g.touch now := by
  have hp := (h.stored row hstored).1
  obtain ⟨hk, hcount, hreason⟩ : g.k = e.k.toNat ∧ g.parityCount = e.parityCount.toNat ∧
      g.closeReason = e.closeReason.toNat := by
    by_contra hne
    refine hno (.inl ⟨hp, ?_⟩)
    tauto
  have hopened : g.parities.isEmpty = false := by
    rw [Bool.eq_false_iff]
    intro hempty
    rw [List.isEmpty_iff.mp hempty] at hstored
    exact hstored rfl
  unfold Generation.close
  rw [h.ensure_same hk.le, hopened, ← hcount, ← hreason]
  rfl

/-- The vector of sixteen empty rows stores no width. -/
theorem Opened.close_otherWidth (h : Opened g) :
    (g.close e now).otherWidth payload = g.otherWidth payload := by
  have hparities : (g.ensure e.k.toNat).parities = g.parities := by
    rw [g.ensure_eq _ h.lengths]
  change (if (g.ensure e.k.toNat).parities.isEmpty then List.replicate 16 []
    else (g.ensure e.k.toNat).parities).any _ = g.parities.any _
  rw [hparities]
  split
  · next hempty =>
    rw [List.isEmpty_iff.mp hempty]
    rfl
  · rfl

/-- A width that differs is that of a stored row. -/
theorem Generation.stored_of_otherWidth (h : g.otherWidth payload = true) :
    ∃ row, g.parities.getD row [] ≠ [] := by
  obtain ⟨parity, hmem, htest⟩ := List.any_eq_true.mp h
  obtain ⟨row, hrow, rfl⟩ := List.getElem_of_mem hmem
  refine ⟨row, fun hnil => ?_⟩
  rw [List.getD_eq_getElem _ _ hrow] at hnil
  rw [hnil] at htest
  cases htest

variable {publish : Publish σ} {W : Work (σ × ℕ)} {r : Bool × Work (σ × ℕ)}

/-- **A data shard** for a slot that holds its generation. -/
theorem TakesData.rejected (hr : TakesData (counting publish) e payload now W r) (h : Safe W.gen)
    (hfalse : r.1 = false) (hnone : r.2.out.2 = 0) :
    W.gen.Alike (W.gen.firstNs ≠ 0) False r.2.gen := by
  have hsame : ¬ conflictsData e W.gen → W.gen.ensure e.k.toNat = W.gen := fun hno =>
    h.ensure_same (Nat.le_of_not_lt fun hlt => hno (.inl hlt))
  cases hr with
  | refused => exact .refl W.gen
  | beyond hno =>
    dsimp only
    rw [hsame hno]
    exact .refl W.gen
  | unpublished hno hpub =>
    dsimp only
    rw [hsame hno]
    exact W.gen.alike_touch now
  | @stored hno hindex out hpub g hg =>
    -- the frame was taken
    have htaken : 0 < out.2 := by
      unfold counting at hpub
      split at hpub
      · cases hpub
        exact Nat.succ_pos _
      · cases hpub
    exact absurd hnone ((counting_keeps publish).tryRecover _ htaken).ne'

/-- **A parity shard** that is turned away. -/
theorem TakesParity.rejected (hr : TakesParity (counting publish) e payload now W r)
    (h : Safe W.gen) (haway : W.gen.turnsAway e payload) (hpayload : payload ≠ [])
    (hfalse : r.1 = false) (hnone : r.2.out.2 = 0) :
    W.gen.Alike (W.gen.firstNs ≠ 0) False r.2.gen := by
  cases hr with
  | refused => exact .refl W.gen
  | width hno hwidth =>
    rw [h.close_otherWidth] at hwidth
    obtain ⟨row, hstored⟩ := Generation.stored_of_otherWidth hwidth
    dsimp only
    rw [h.close_same hno hstored]
    exact W.gen.alike_touch now
  | @stored hno hwidth g hg =>
    rw [h.close_otherWidth] at hwidth
    -- only a repeated shard gets here, and it is stored over itself
    have hrepeat : W.gen.parities.getD (e.index.toNat - e.k.toNat) [] = payload := by
      rcases haway with hyes | hyes | hyes
      · exact absurd hyes hno
      · rw [hwidth] at hyes
        cases hyes
      · exact hyes
    have hstored : W.gen.parities.getD (e.index.toNat - e.k.toNat) [] ≠ [] := by
      rw [hrepeat]
      exact hpayload
    have hgen : { g with
        parities := g.parities.set (e.index.toNat - e.k.toNat) payload
        parityReceived := true } = W.gen.touch now := by
      rw [h.close_same hno hstored] at hg
      subst hg
      have hlt : e.index.toNat - e.k.toNat < W.gen.parities.length := by
        by_contra hge
        exact hstored (List.getD_eq_default _ _ (Nat.le_of_not_lt hge))
      have hset : W.gen.parities.set (e.index.toNat - e.k.toNat) payload = W.gen.parities := by
        rw [← hrepeat, List.getD_eq_getElem _ _ hlt, List.set_getElem_self]
      have hp := (h.stored _ hstored).1
      unfold Generation.touch
      dsimp only
      rw [hset, ← hp]
    rw [hgen] at hfalse hnone ⊢
    have hrecovers := tryRecover_recovers (counting publish) now
      { W with gen := W.gen.touch now }
    generalize tryRecover (counting publish) now _ = r at hfalse hnone hrecovers ⊢
    cases hrecovers with
    | still => exact W.gen.alike_touch now
    | stopped hblocks hrun =>
      rw [publishRecovered_none publish hrun hnone]
      exact W.gen.alike_touch now
    | finished => cases hfalse

end OneGeneration

/-! ### The decoder -/

namespace Decoder

variable {d : Decoder} {genId : BitVec 32}

/-- No generation at hand began at time zero, which also stands for a first shard yet to come. -/
def Clocked (d : Decoder) : Prop :=
  ∀ j, (d.slots.getD j {}).active = true → (d.slots.getD j {}).firstNs ≠ 0

/-- A slot that holds the generation is worked on as it is. -/
theorem slot_held (hholds : d.Holds genId) (k now : ℕ) :
    d.slot genId k now = (d.held genId, d.stats) := by
  rcases d.slot_eq genId k now with ⟨-, hslot⟩ | ⟨hnot, -⟩
  · exact hslot
  · exact absurd hholds hnot

theorem onSlot_held (hholds : d.Holds genId) {k now : ℕ} {s : σ} {f : Work σ → Bool × Work σ} :
    d.onSlot genId k now s f = ((f ⟨d.held genId, d.stats, s⟩).1,
      d.store genId (f ⟨d.held genId, d.stats, s⟩).2.gen (f ⟨d.held genId, d.stats, s⟩).2.stats,
      (f ⟨d.held genId, d.stats, s⟩).2.out) := by
  rw [onSlot, slot_held hholds]

/-- Only that slot is written. -/
theorem onSlot_alike (hholds : d.Holds genId) (k now : ℕ) (s : σ) {f : Work σ → Bool × Work σ}
    (hgen : (d.held genId).Alike ((d.held genId).firstNs ≠ 0) False
      (f ⟨d.held genId, d.stats, s⟩).2.gen) :
    Decoder.Alike d.Clocked False d (d.onSlot genId k now s f).2.1 := by
  have hslot := slot_held hholds k now
  obtain ⟨d', heq, honly, hheld⟩ := d.onSlot_eq genId k now s f rfl
  rw [heq]
  refine ⟨honly.gens, fun j => ?_, fun _ => False.elim⟩
  by_cases hj : j = d.place genId
  · have hbefore : d.slots.getD j {} = d.held genId := by rw [hj]; rfl
    have hafter : d'.slots.getD j {} = d'.held genId := by
      rw [held, place, honly.gens, hj]
      rfl
    rw [hafter, hheld, hslot, hbefore]
    refine hgen.mono fun hclocked => ?_
    have hclock := hclocked j
    rw [hbefore] at hclock
    exact hclock hholds.1
  · rw [honly.slots j hj]
    exact .refl _

/-- **A rejected datagram** of those that are spared leaves the decoder alike. -/
theorem receive_rejected (hsafe : d.AllSafe) (publish : Publish σ) {data : List Byte} {now : ℕ}
    {s : σ} (hspared : Spared d data) (hfalse : (d.receive publish data now s).1 = false)
    (hnone : d.published publish data now s = 0) :
    Decoder.Alike d.Clocked False d (d.receive publish data now s).2.1 := by
  -- the same call with the frames counted
  obtain ⟨hsame, halike, -⟩ := (counting_answers publish).receive (Alike.refl True True d) data now
    (show (s, 0).1 = s from rfl)
  rw [← halike.eq_of_full]
  rw [hsame] at hfalse
  rw [published] at hnone
  have hreceives := receive_receives (counting publish) d data now (s, 0)
  generalize d.receive (counting publish) data now (s, 0) = r at hfalse hnone hreceives ⊢
  cases hreceives with
  | plain => exact .refl d.Clocked False d
  | rejected => exact .refl d.Clocked False d
  | @data hfec e payload he hpayload hgood hcount =>
    subst he hpayload
    obtain ⟨hholds, -⟩ := (hspared.resolve_left hfec).resolve_left hgood
    refine onSlot_alike hholds _ now (s, 0) ?_
    rw [onSlot_held hholds] at hfalse hnone
    exact (receiveData_takes _ _ _ _ _).rejected (hsafe _ hholds.1) hfalse hnone
  | @parity hfec e payload he hpayload hgood hcount =>
    subst he hpayload
    obtain ⟨hholds, haway⟩ := (hspared.resolve_left hfec).resolve_left hgood
    have hpayload : data.drop kEnvelopeSize ≠ [] := by
      intro hnil
      refine hgood (.inr (.inr ⟨hcount, ?_⟩))
      rw [hnil, badParity, List.length_nil]
      omega
    have hcounted : d.countParity.Holds (readEnvelope data).genId := hholds
    rw [onSlot_held hcounted] at hfalse hnone
    have halike := onSlot_alike hcounted (readEnvelope data).k.toNat now (s, 0)
      ((receiveParity_takes _ _ _ _ _).rejected (hsafe _ hholds.1) (haway.resolve_left hcount)
        hpayload hfalse hnone)
    -- the count of parity shards is not part of what is compared
    exact ⟨halike.gens, halike.slots, fun _ => False.elim⟩

/-! ### What comes later -/

/-- What a caller hears from a sequence of calls: the answers, and its own state at the end. -/
def heard (d : Decoder) (s : σ) : List (Call σ) → List Bool × σ
  | [] => ([], s)
  | .receive publish data now :: later =>
    let result := d.receive publish data now s
    let rest := result.2.1.heard result.2.2 later
    (result.1 :: rest.1, rest.2)
  | .expire now ttl :: later => (d.expire now ttl).heard s later
  | .retireAll :: later => d.retireAll.heard s later

variable {clock full : Prop} {d' : Decoder}

theorem expire_getD (d : Decoder) (now ttl j : ℕ) : (d.expire now ttl).slots.getD j {} =
    if expired now ttl (d.slots.getD j {}) then {} else d.slots.getD j {} := by
  by_cases hj : j < d.slots.length
  · rw [expire, getD_map (d := ({} : Generation)) _ _ hj]
  · have hnone : d.slots.getD j {} = {} := List.getD_eq_default _ _ (Nat.le_of_not_lt hj)
    rw [hnone, List.getD_eq_default _ _ (by rw [expire, List.length_map]; omega), ite_self]

theorem retireAll_getD (d : Decoder) (j : ℕ) :
    d.retireAll.slots.getD j {} = (finalize (d.slots.getD j {}) d.stats).1 := by
  by_cases hj : j < d.slots.length
  · rw [retireAll, getD_map (d := ({} : Generation)) _ _ hj]
  · have hnone : d.slots.getD j {} = {} := List.getD_eq_default _ _ (Nat.le_of_not_lt hj)
    rw [hnone, List.getD_eq_default _ _ (by rw [retireAll, List.length_map]; omega)]
    rfl

/-- `expire` reads the time of the first shard. -/
theorem Alike.expire (h : Decoder.Alike clock False d d') (hclock : clock) (now ttl : ℕ) :
    Decoder.Alike clock False (d.expire now ttl) (d'.expire now ttl) := by
  refine ⟨h.gens, fun j => ?_, fun _ => False.elim⟩
  have hslot := h.slots j
  rw [expire_getD, expire_getD]
  generalize d.slots.getD j {} = g at hslot ⊢
  generalize d'.slots.getD j {} = g' at hslot ⊢
  obtain ⟨seenAny, firstNs, rfl, hfirst, -⟩ := hslot
  obtain rfl := hfirst hclock
  change Generation.Alike clock False _ (if expired now ttl g then {} else _)
  split
  · exact .refl _
  · exact ⟨seenAny, g.firstNs, rfl, fun _ => rfl, False.elim⟩

theorem Alike.retireAll (h : Decoder.Alike clock False d d') :
    Decoder.Alike clock False d.retireAll d'.retireAll := by
  refine ⟨h.gens, fun j => ?_, fun _ => False.elim⟩
  have hslot := h.slots j
  rw [retireAll_getD, retireAll_getD]
  generalize d.slots.getD j {} = g at hslot ⊢
  generalize d'.slots.getD j {} = g' at hslot ⊢
  obtain ⟨seenAny, firstNs, rfl, hfirst, -⟩ := hslot
  unfold finalize
  dsimp only
  split
  · exact ⟨seenAny, firstNs, rfl, hfirst, False.elim⟩
  · split
    · exact ⟨seenAny, firstNs, rfl, hfirst, False.elim⟩
    · exact ⟨seenAny, firstNs, rfl, hfirst, False.elim⟩

/-- **Alike decoders are heard alike**, with `expire` among the calls if the times agree. -/
theorem Alike.heard (later : List (Call σ)) (h : Decoder.Alike clock False d d')
    (hexpire : (∃ now ttl, Call.expire now ttl ∈ later) → clock) (s : σ) :
    d'.heard s later = d.heard s later := by
  induction later generalizing d d' s with
  | nil => rfl
  | cons c later ih =>
    have hrest : (∃ now ttl, Call.expire now ttl ∈ later) → clock := by
      rintro ⟨now, ttl, hmem⟩
      exact hexpire ⟨now, ttl, List.mem_cons_of_mem c hmem⟩
    cases c with
    | receive publish data now =>
      have hself : Answers publish publish Eq := by
        rintro frame recovered reason s _ rfl
        exact ⟨rfl, rfl⟩
      obtain ⟨hok, hnext, hout⟩ := hself.receive h data now (rfl : s = s)
      simp only [Decoder.heard, hok, hout]
      rw [ih hnext hrest]
    | expire now ttl =>
      exact ih (h.expire (hexpire ⟨now, ttl, List.mem_cons_self⟩) now ttl) hrest s
    | retireAll => exact ih h.retireAll hrest s

end Decoder

/-- What a slot holds: the generation, its dimensions and its shards. -/
structure Contents where
  active : Bool
  genId : BitVec 32
  k : ℕ
  parityCount : ℕ
  closeReason : ℕ
  received : List Bool
  data : List (List Byte)
  parities : List (List Byte)
deriving DecidableEq

def Generation.contents (g : Generation) : Contents :=
  ⟨g.active, g.genId, g.k, g.parityCount, g.closeReason, g.received, g.data, g.parities⟩

theorem Generation.Alike.contents {clock full : Prop} {g g' : Generation}
    (h : Generation.Alike clock full g g') : g'.contents = g.contents := by
  obtain ⟨seenAny, firstNs, rfl, -⟩ := h
  rfl

/-! ### The others -/

/-- Recovery writes frames, and that it is done. -/
theorem tryRecover_frame (publish : Publish σ) (now : ℕ) (W : Work σ) :
    ∃ received data recovered,
      (tryRecover publish now W).2.gen = { W.gen with received, data, recovered } := by
  -- the publishing loop, by induction on the blocks
  have hpublish : ∀ (blocks : List (ℕ × List Byte)) (W : Work σ), ∃ received data,
      (publishRecovered publish blocks W).2.gen = { W.gen with received, data } := by
    intro blocks
    induction blocks with
    | nil => exact fun W => ⟨W.gen.received, W.gen.data, rfl⟩
    | cons b blocks ih =>
      intro W
      unfold publishRecovered
      dsimp only
      split
      · exact ⟨W.gen.received, W.gen.data, rfl⟩
      · obtain ⟨received, data, hgen⟩ := ih _
        exact ⟨received, data, hgen⟩
  have hrecovers := tryRecover_recovers publish now W
  generalize tryRecover publish now W = r at hrecovers ⊢
  cases hrecovers with
  | still => exact ⟨W.gen.received, W.gen.data, W.gen.recovered, rfl⟩
  | stopped hblocks hrun =>
    obtain ⟨received, data, hgen⟩ := hpublish _ W
    rw [hrun] at hgen
    exact ⟨received, data, W.gen.recovered, hgen⟩
  | finished hblocks hrun =>
    obtain ⟨received, data, hgen⟩ := hpublish _ W
    rw [hrun] at hgen
    refine ⟨received, data, true, ?_⟩
    dsimp only [finishRecovery]
    rw [hgen]

/-- A shard is worked on in the slot of its generation. -/
theorem TakesData.names {publish : Publish σ} {e : Envelope} {payload : List Byte} {now : ℕ}
    {W : Work σ} {r : Bool × Work σ} (hr : TakesData publish e payload now W r) (h : Opened W.gen) :
    r.2.gen.active = W.gen.active ∧ r.2.gen.genId = W.gen.genId := by
  have hensure := W.gen.ensure_eq e.k.toNat h.lengths
  cases hr with
  | refused => exact ⟨rfl, rfl⟩
  | beyond | unpublished =>
    rw [hensure]
    exact ⟨rfl, rfl⟩
  | stored hno hindex hpub hg =>
    obtain ⟨received, data, recovered, hgen⟩ := tryRecover_frame publish now _
    rw [hgen, ← hg, hensure]
    exact ⟨rfl, rfl⟩

theorem TakesParity.names {publish : Publish σ} {e : Envelope} {payload : List Byte} {now : ℕ}
    {W : Work σ} {r : Bool × Work σ} (hr : TakesParity publish e payload now W r)
    (h : Opened W.gen) : r.2.gen.active = W.gen.active ∧ r.2.gen.genId = W.gen.genId := by
  have hclose : (W.gen.close e now).active = W.gen.active ∧
      (W.gen.close e now).genId = W.gen.genId := by
    unfold Generation.close
    rw [W.gen.ensure_eq e.k.toNat h.lengths]
    exact ⟨rfl, rfl⟩
  cases hr with
  | refused => exact ⟨rfl, rfl⟩
  | width => exact hclose
  | stored hno hwidth hg =>
    obtain ⟨received, data, recovered, hgen⟩ := tryRecover_frame publish now _
    rw [hgen, ← hg]
    exact hclose

/-- A parity shard that is not turned away is stored. -/
theorem TakesParity.stays {publish : Publish σ} {e : Envelope} {payload : List Byte} {now : ℕ}
    {W : Work σ} {r : Bool × Work σ} (hr : TakesParity publish e payload now W r)
    (h : Opened W.gen) (hk : 1 ≤ e.k.toNat) (hbad : ¬ Decoder.badParity e payload)
    (hnot : ¬ W.gen.turnsAway e payload) :
    r.2.gen.parities.getD (e.index.toNat - e.k.toNat) [] = payload := by
  cases hr with
  | refused hyes => exact absurd (.inl hyes) hnot
  | width hno hwidth =>
    rw [h.close_otherWidth] at hwidth
    exact absurd (.inr (.inl hwidth)) hnot
  | stored hno hwidth hg =>
    simp only [Decoder.badParity, not_or, not_lt] at hbad
    have hlen := (h.close now hno hk hbad.1).2
    obtain ⟨received, data, recovered, hgen⟩ := tryRecover_frame publish now _
    rw [hgen, ← hg]
    dsimp only
    rw [getD_set (by omega), if_pos rfl]

namespace Decoder

variable {d : Decoder} {genId : BitVec 32}

/-- A slot whose contents stay held the generation before. -/
theorem holds_of_contents (k now : ℕ) (s : σ) {f : Work σ → Bool × Work σ}
    (hnames : (f ⟨(d.slot genId k now).1, (d.slot genId k now).2, s⟩).2.gen.active =
        (d.slot genId k now).1.active ∧
      (f ⟨(d.slot genId k now).1, (d.slot genId k now).2, s⟩).2.gen.genId =
        (d.slot genId k now).1.genId)
    (hsame : ((d.onSlot genId k now s f).2.1.held genId).contents = (d.held genId).contents) :
    d.Holds genId := by
  rcases d.slot_eq genId k now with ⟨hholds, -⟩ | ⟨-, st, hslot⟩
  · exact hholds
  · obtain ⟨d', heq, -, hheld⟩ := d.onSlot_eq genId k now s f rfl
    rw [heq, hheld] at hsame
    have hactive := congrArg Contents.active hsame
    have hgenId := congrArg Contents.genId hsame
    dsimp only [Generation.contents] at hactive hgenId
    rw [hnames.1, hslot] at hactive
    rw [hnames.2, hslot] at hgenId
    exact ⟨hactive.symm, hgenId.symm⟩

end Decoder

/-- **Every other shard leaves something behind**, whatever the callback answers: a generation that
was not there, or its parity. -/
theorem unspared_changes {d : Decoder} (hsafe : d.AllSafe) (publish : Publish σ) {data : List Byte}
    (now : ℕ) (s : σ) (hnot : ¬ Spared d data) :
    ((d.receive publish data now s).2.1.held (readEnvelope data).genId).contents ≠
      (d.held (readEnvelope data).genId).contents := by
  intro hsame
  have hreceives := receive_receives publish d data now s
  generalize d.receive publish data now s = r at hreceives hsame
  cases hreceives with
  | plain hplain => exact hnot (.inl hplain)
  | rejected hbad => exact hnot (.inr (.inl hbad))
  | @data hfec e payload he hpayload hgood hcount =>
    subst he hpayload
    obtain ⟨hk, hk'⟩ := k_of_good hgood
    have hopened := hsafe.slot_opened (readEnvelope data).genId now hk hk'
    have hholds := Decoder.holds_of_contents _ _ s
      ((receiveData_takes publish _ _ now _).names hopened) hsame
    exact hnot (.inr (.inr ⟨hholds, .inl hcount⟩))
  | @parity hfec e payload he hpayload hgood hcount =>
    subst he hpayload
    obtain ⟨hk, hk'⟩ := k_of_good hgood
    have hbad : ¬ Decoder.badParity (readEnvelope data) (data.drop kEnvelopeSize) := fun hbad =>
      hgood (.inr (.inr ⟨hcount, hbad⟩))
    have hcounted : d.countParity.AllSafe := hsafe
    have hopened := hcounted.slot_opened (readEnvelope data).genId now hk hk'
    have hholds : d.countParity.Holds (readEnvelope data).genId :=
      Decoder.holds_of_contents _ _ s ((receiveParity_takes publish _ _ now _).names hopened) hsame
    have haway : ¬ (d.held (readEnvelope data).genId).turnsAway (readEnvelope data)
        (data.drop kEnvelopeSize) := fun haway => hnot (.inr (.inr ⟨hholds, .inr haway⟩))
    -- the parity that is there now was there before
    obtain ⟨d', heq, -, hheld⟩ := d.countParity.onSlot_eq (readEnvelope data).genId
      (readEnvelope data).k.toNat now s
      (receiveParity publish (readEnvelope data) (data.drop kEnvelopeSize) now) rfl
    rw [heq, hheld, Decoder.slot_held hholds] at hsame
    have hstays := (receiveParity_takes publish _ _ now _).stays
      (W := ⟨d.held (readEnvelope data).genId, d.countParity.stats, s⟩)
      (hsafe _ hholds.1).toOpened hk hbad haway
    refine haway (.inr (.inr ?_))
    have hparities := congrArg Contents.parities hsame
    exact (congrArg (fun p => List.getD p _ []) hparities.symm).trans hstays

/-- **A rejected shard leaves nothing behind** just if it is one of those `Spared` names: in every
reachable state these are the shards with which every slot keeps its contents, and after one of them
whatever comes later is answered as if it had never arrived. The time of a first shard that came at
time zero may change, which `expire` reads. -/
theorem rejected_leaves_alike (gens : ℕ) (s₀ : σ) (calls : List (Call σ)) (publish : Publish σ)
    (data : List Byte) (now : ℕ) (s : σ) {d : Decoder}
    (hreached : (calls.foldl Decoder.call (Decoder.new gens, s₀)).1 = d)
    (hfalse : (d.receive publish data now s).1 = false)
    (hnone : d.published publish data now s = 0) :
    (Spared d data ↔ ∀ j, ((d.receive publish data now s).2.1.slots.getD j {}).contents =
        (d.slots.getD j {}).contents) ∧
      (Spared d data → ∀ (later : List (Call σ)) (t : σ),
        ((∃ now ttl, Call.expire now ttl ∈ later) → d.Clocked) →
          (d.receive publish data now s).2.1.heard t later = d.heard t later) := by
  have hstart : (Decoder.new gens, s₀).1.AllSafe := .new gens
  have hsafe : d.AllSafe := hreached ▸ hstart.afterAll calls
  have halike := fun hspared : Spared d data =>
    Decoder.receive_rejected hsafe publish hspared hfalse hnone
  refine ⟨⟨fun hspared j => ((halike hspared).slots j).contents, fun hsame => ?_⟩,
    fun hspared later t hexpire => (halike hspared).heard later hexpire t⟩
  by_contra hnot
  refine unspared_changes hsafe publish now s hnot ?_
  rw [Decoder.held, Decoder.held, Decoder.place, Decoder.place, Decoder.receive_gens]
  exact hsame _

/-! ### Two shards that stay -/

instance (e : Envelope) (g : Generation) : Decidable (conflictsParity e g) :=
  inferInstanceAs (Decidable (_ ∨ _))

instance (g : Generation) (e : Envelope) (payload : List Byte) :
    Decidable (g.turnsAway e payload) :=
  inferInstanceAs (Decidable (_ ∨ _))

instance (e : Envelope) (payload : List Byte) : Decidable (badEnvelope e payload) :=
  inferInstanceAs (Decidable (_ ∨ _))

instance (d : Decoder) (data : List Byte) : Decidable (Spared d data) :=
  inferInstanceAs (Decidable (_ ∨ _))

/-- A callback that takes every frame, and one that takes none. -/
def takes : Publish Unit := fun _ _ _ s => (true, s)

def refuses : Publish Unit := fun _ _ _ s => (false, s)

/-- The first of two frames has come, to a decoder of one slot. -/
def firstOfTwo : Decoder :=
  ([.receive takes (dataDatagram 0 0 2 [1, 2, 3]) 1].foldl Decoder.call (Decoder.new 1, ())).1

/-- The second frame, refused by the callback, leaves nothing behind. -/
theorem refused_frame_gone :
    Spared firstOfTwo (dataDatagram 0 1 2 [4, 5, 6]) ∧
      (firstOfTwo.receive refuses (dataDatagram 0 1 2 [4, 5, 6]) 2 ()).1 = false ∧
      firstOfTwo.published refuses (dataDatagram 0 1 2 [4, 5, 6]) 2 () = 0 ∧
      ∀ j, ((firstOfTwo.receive refuses (dataDatagram 0 1 2 [4, 5, 6]) 2 ()).2.1.slots.getD j
        {}).contents = (firstOfTwo.slots.getD j {}).contents := by
  have hspared : Spared firstOfTwo (dataDatagram 0 1 2 [4, 5, 6]) := by decide +kernel
  have hfalse : (firstOfTwo.receive refuses (dataDatagram 0 1 2 [4, 5, 6]) 2 ()).1 = false := by
    decide +kernel
  have hnone : firstOfTwo.published refuses (dataDatagram 0 1 2 [4, 5, 6]) 2 () = 0 := by
    decide +kernel
  exact ⟨hspared, hfalse, hnone,
    (rejected_leaves_alike 1 () _ refuses _ 2 () rfl hfalse hnone).1.mp hspared⟩

/-- A parity shard of six bytes whose content makes the recovered length zero. -/
def garbage : List Byte := writeEnvelope ⟨kMagic, 0, 2, 2, 1, 6, 0⟩ ++ [3, 0, 9, 9, 9, 9]

/-- The parity the encoder builds for the two frames, of five bytes. -/
def genuine : List Byte := writeEnvelope ⟨kMagic, 0, 2, 2, 1, 5, 0⟩ ++ [0, 0, 5, 7, 5]

/-- **A rejected shard can stay.** The garbage parity is rejected with nothing published, but it is
stored, and the genuine one, which would have recovered the second frame, is then turned away for
its width. A data shard of another generation evicts the one at hand though its frame is refused. -/
theorem garbage_parity_stays :
    ((firstOfTwo.receive takes garbage 2 ()).1 = false ∧
      firstOfTwo.published takes garbage 2 () = 0 ∧
      ((firstOfTwo.receive takes garbage 2 ()).2.1.slots.getD 0 {}).contents ≠
        (firstOfTwo.slots.getD 0 {}).contents ∧
      firstOfTwo.heard () [.receive takes genuine 3] = ([true], ()) ∧
      firstOfTwo.published takes genuine 3 () = 1 ∧
      (firstOfTwo.receive takes garbage 2 ()).2.1.heard () [.receive takes genuine 3] =
        ([false], ())) ∧
    (firstOfTwo.receive refuses (dataDatagram 1 0 2 [7]) 2 ()).1 = false ∧
      firstOfTwo.published refuses (dataDatagram 1 0 2 [7]) 2 () = 0 ∧
      ((firstOfTwo.receive refuses (dataDatagram 1 0 2 [7]) 2 ()).2.1.slots.getD 0 {}).genId = 1 ∧
      (firstOfTwo.slots.getD 0 {}).genId = 0 := by
  refine ⟨⟨?_, ?_, ?_, ?_, ?_, ?_⟩, ?_, ?_, ?_, ?_⟩
  all_goals decide +kernel

end Fec
end PulseFanout
