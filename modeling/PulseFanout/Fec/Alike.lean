import PulseFanout.Framework.Bounds
import PulseFanout.Fec.Decoder

/-!
# Two decoders side by side

`receive` sees the caller's state through the callback only, and of a generation it reads the time
of the first shard and `seen_any` only to count and to expire. So two callers whose callbacks answer
alike, with decoders that differ in no more than that, get the same answers and such decoders again:
`Answers.receive`. What the callback keeps, `receive` keeps (`Keeps.receive`).
-/

namespace PulseFanout
namespace Fec

open Framework

variable {σ : Type}

/-! ### Generations that differ in no more than that -/

/-- The same generation up to `seen_any` and the time of the first shard; with `clock`, that time is
the same, and with `full`, so is `seen_any`. -/
def Generation.Alike (clock full : Prop) (g g' : Generation) : Prop :=
  ∃ seenAny firstNs, g' = { g with seenAny, firstNs } ∧ (clock → firstNs = g.firstNs) ∧
    (full → seenAny = g.seenAny)

namespace Generation.Alike

variable {clock full : Prop} {g g' : Generation}

theorem refl (g : Generation) : Alike clock full g g :=
  ⟨g.seenAny, g.firstNs, rfl, fun _ => rfl, fun _ => rfl⟩

theorem ensure (h : Alike clock full g g') (k : ℕ) :
    Alike clock full (g.ensure k) (g'.ensure k) := by
  obtain ⟨seenAny, firstNs, rfl, hclock, hfull⟩ := h
  refine ⟨seenAny, firstNs, ?_, ?_, ?_⟩
  · unfold Generation.ensure Generation.shrink
    dsimp only
    split <;> (unfold resize; dsimp only; split <;> rfl)
  · intro hc
    rw [hclock hc]
    unfold Generation.ensure Generation.shrink
    split <;> (unfold resize; split <;> rfl)
  · intro hf
    rw [hfull hf]
    unfold Generation.ensure Generation.shrink
    split <;> (unfold resize; split <;> rfl)

theorem touch (h : Alike clock full g g') (now : ℕ) :
    Alike clock full (g.touch now) (g'.touch now) := by
  obtain ⟨seenAny, firstNs, rfl, hclock, -⟩ := h
  refine ⟨true, if firstNs = 0 then now else firstNs, rfl, fun hc => ?_, fun _ => rfl⟩
  rw [hclock hc]
  rfl

theorem close (h : Alike clock full g g') (e : Envelope) (now : ℕ) :
    Alike clock full (g.close e now) (g'.close e now) := by
  have hensure := h.ensure e.k.toNat
  unfold Generation.close
  generalize g.ensure e.k.toNat = g₁ at hensure ⊢
  generalize g'.ensure e.k.toNat = g₂ at hensure ⊢
  obtain ⟨seenAny, firstNs, rfl, hclock, -⟩ := hensure
  refine ⟨true, if firstNs = 0 then now else firstNs, rfl, fun hc => ?_, fun _ => rfl⟩
  rw [hclock hc]
  rfl

theorem mono {clock' : Prop} (h : Alike clock full g g') (hclock : clock' → clock) :
    Alike clock' full g g' := by
  obtain ⟨seenAny, firstNs, heq, hfirst, hseen⟩ := h
  exact ⟨seenAny, firstNs, heq, fun hc => hfirst (hclock hc), hseen⟩

theorem eq_of_full (h : Alike True True g g') : g' = g := by
  obtain ⟨seenAny, firstNs, rfl, hclock, hfull⟩ := h
  rw [hclock trivial, hfull trivial]

end Generation.Alike

/-! ### Two callers -/

section Answers

variable {τ : Type} {publish : Publish σ} {publish' : Publish τ} {ρ : σ → τ → Prop}
  {clock full : Prop}

/-- On related states the callbacks give the same answer, and leave related states. -/
def Answers (publish : Publish σ) (publish' : Publish τ) (ρ : σ → τ → Prop) : Prop :=
  ∀ frame recovered reason s t, ρ s t →
    (publish frame recovered reason s).1 = (publish' frame recovered reason t).1 ∧
      ρ (publish frame recovered reason s).2 (publish' frame recovered reason t).2

/-- The same work for two callers. -/
structure Work.Same (clock full : Prop) (ρ : σ → τ → Prop) (W : Work σ) (V : Work τ) : Prop where
  gen : W.gen.Alike clock full V.gen
  stats : clock → full → V.stats = W.stats
  out : ρ W.out V.out

theorem Work.Same.refl (clock full : Prop) {ρ : σ → σ → Prop} {W : Work σ} (hW : ρ W.out W.out) :
    Work.Same clock full ρ W W :=
  ⟨.refl W.gen, fun _ _ => rfl, hW⟩

/-- The same result for two callers. -/
def SameResult (clock full : Prop) (ρ : σ → τ → Prop) (r : Bool × Work σ) (r' : Bool × Work τ) :
    Prop :=
  r.1 = r'.1 ∧ Work.Same clock full ρ r.2 r'.2

/-- Two decoders with the same generations. -/
structure Decoder.Alike (clock full : Prop) (d d' : Decoder) : Prop where
  gens : d'.gens = d.gens
  slots : ∀ j, (d.slots.getD j {}).Alike clock full (d'.slots.getD j {})
  stats : clock → full → d'.stats = d.stats

theorem Decoder.Alike.refl (clock full : Prop) (d : Decoder) : Decoder.Alike clock full d d :=
  ⟨rfl, fun _ => Generation.Alike.refl _, fun _ _ => rfl⟩

theorem Decoder.Alike.eq_of_full {d d' : Decoder} (h : Decoder.Alike True True d d') : d' = d := by
  obtain ⟨gens, slots, stats, hpos, hlen⟩ := d
  obtain ⟨gens', slots', stats', hpos', hlen'⟩ := d'
  obtain ⟨rfl, hslots, hstats⟩ := h
  obtain rfl := hstats trivial trivial
  have hsame : slots' = slots := by
    refine List.ext_getElem (hlen'.trans hlen.symm) fun j hj hj' => ?_
    have hslot := (hslots j).eq_of_full
    dsimp only at hslot
    rwa [List.getD_eq_getElem _ _ hj, List.getD_eq_getElem _ _ hj'] at hslot
  subst hsame
  rfl

namespace Answers

variable {W : Work σ} {V : Work τ}

theorem publishRecovered (h : Answers publish publish' ρ) (blocks : List (ℕ × List Byte))
    (hW : Work.Same clock full ρ W V) :
    SameResult clock full ρ (publishRecovered publish blocks W)
      (publishRecovered publish' blocks V) := by
  induction blocks generalizing W V with
  | nil => exact ⟨rfl, hW⟩
  | cons b blocks ih =>
    obtain ⟨g, st, s⟩ := W
    obtain ⟨g', st', t⟩ := V
    obtain ⟨⟨seenAny, firstNs, rfl, hclock, hfull⟩, hstats, hst⟩ := hW
    have hnext := h ((b.2.drop 2).take (getU16 b.2)) true g.closeReason s t hst
    unfold Fec.publishRecovered
    dsimp only
    generalize publish _ true g.closeReason s = r at hnext ⊢
    generalize publish' _ true g.closeReason t = r' at hnext ⊢
    obtain ⟨ok, s⟩ := r
    obtain ⟨ok', t⟩ := r'
    obtain ⟨rfl, hst⟩ := hnext
    cases ok with
    | false => exact ⟨rfl, ⟨seenAny, firstNs, rfl, hclock, hfull⟩, hstats, hst⟩
    | true =>
      refine ih ⟨⟨seenAny, firstNs, rfl, hclock, hfull⟩, fun hc hf => ?_, hst⟩
      have hsame : st' = st := hstats hc hf
      dsimp only
      rw [hsame]

theorem tryRecover (h : Answers publish publish' ρ) (now : ℕ) (hW : Work.Same clock full ρ W V) :
    SameResult clock full ρ (tryRecover publish now W) (tryRecover publish' now V) := by
  obtain ⟨g, st, s⟩ := W
  obtain ⟨g', st', t⟩ := V
  have hpub := fun S : System => h.publishRecovered (g.absent.zip S.rhs) hW
  obtain ⟨⟨seenAny, firstNs, rfl, hclock, hfull⟩, hstats, hst⟩ := hW
  -- what `try_recover` reads of the generation is the same
  have hmissing : Generation.missing { g with seenAny, firstNs } = g.missing := rfl
  have habsent : Generation.absent { g with seenAny, firstNs } = g.absent := rfl
  have hrows : Generation.rows { g with seenAny, firstNs } = g.rows := rfl
  have hsyndrome : Generation.syndrome { g with seenAny, firstNs } = g.syndrome := rfl
  have hsame : ∀ ok, SameResult clock full ρ (ok, ⟨g, st, s⟩)
      (ok, ⟨{ g with seenAny, firstNs }, st', t⟩) := fun ok =>
    ⟨rfl, ⟨seenAny, firstNs, rfl, hclock, hfull⟩, hstats, hst⟩
  unfold Fec.tryRecover
  dsimp only
  rw [hmissing, habsent, hrows, hsyndrome]
  split_ifs
  · exact hsame true
  · exact hsame true
  · exact hsame true
  · split
    · exact hsame false
    · split
      · exact hsame false
      · next S _ =>
        split_ifs
        · have hend := hpub S
          generalize Fec.publishRecovered publish _ _ = r at hend ⊢
          generalize Fec.publishRecovered publish' _ _ = r' at hend ⊢
          obtain ⟨ok, g₁, st₁, s₁⟩ := r
          obtain ⟨ok', g₂, st₂, t₁⟩ := r'
          obtain ⟨rfl, ⟨seenAny, firstNs, rfl, hclock, hfull⟩, hstats, hst⟩ := hend
          cases ok with
          | false => exact ⟨rfl, ⟨seenAny, firstNs, rfl, hclock, hfull⟩, hstats, hst⟩
          | true =>
            refine ⟨rfl, ⟨seenAny, firstNs, rfl, hclock, hfull⟩, fun hc hf => ?_, hst⟩
            have hcount : st₂ = st₁ := hstats hc hf
            dsimp only [finishRecovery]
            rw [hcount, hclock hc]
        · exact hsame false

theorem receiveData (h : Answers publish publish' ρ) (e : Envelope) (payload : List Byte) (now : ℕ)
    (hW : Work.Same clock full ρ W V) :
    SameResult clock full ρ (receiveData publish e payload now W)
      (receiveData publish' e payload now V) := by
  obtain ⟨g, st, s⟩ := W
  obtain ⟨g', st', t⟩ := V
  obtain ⟨hgen, hstats, hst⟩ := hW
  have hensure := hgen.ensure e.k.toNat
  unfold Fec.receiveData
  dsimp only at hensure ⊢
  generalize hg₁ : g.ensure e.k.toNat = g₁ at hensure ⊢
  generalize hg₂ : g'.ensure e.k.toNat = g₂ at hensure ⊢
  obtain ⟨seenAny, firstNs, rfl, hclock, hfull⟩ := hgen
  obtain ⟨seenAny', firstNs', rfl, hclock', hfull'⟩ := hensure
  dsimp only
  split
  · exact ⟨rfl, ⟨seenAny, firstNs, rfl, hclock, hfull⟩, hstats, hst⟩
  split
  · exact ⟨rfl, ⟨seenAny', firstNs', rfl, hclock', hfull'⟩, hstats, hst⟩
  have htouch : Generation.Alike clock full (g₁.touch now)
      ({ g₁ with seenAny := seenAny', firstNs := firstNs' }.touch now) :=
    .touch ⟨seenAny', firstNs', rfl, hclock', hfull'⟩ now
  generalize g₁.touch now = g₃ at htouch ⊢
  generalize Generation.touch _ now = g₄ at htouch ⊢
  obtain ⟨seenAny, firstNs, rfl, hclock, hfull⟩ := htouch
  have hnext := h payload false g₃.closeReason s t hst
  generalize publish payload false _ s = r at hnext ⊢
  generalize publish' payload false _ t = r' at hnext ⊢
  obtain ⟨ok, s⟩ := r
  obtain ⟨ok', t⟩ := r'
  obtain ⟨rfl, hst⟩ := hnext
  cases ok with
  | false => exact ⟨rfl, ⟨seenAny, firstNs, rfl, hclock, hfull⟩, hstats, hst⟩
  | true => exact h.tryRecover now ⟨⟨seenAny, firstNs, rfl, hclock, hfull⟩, hstats, hst⟩

theorem receiveParity (h : Answers publish publish' ρ) (e : Envelope) (payload : List Byte)
    (now : ℕ) (hW : Work.Same clock full ρ W V) :
    SameResult clock full ρ (receiveParity publish e payload now W)
      (receiveParity publish' e payload now V) := by
  obtain ⟨g, st, s⟩ := W
  obtain ⟨g', st', t⟩ := V
  obtain ⟨hgen, hstats, hst⟩ := hW
  have hclose := hgen.close e now
  unfold Fec.receiveParity
  dsimp only at hclose ⊢
  generalize hg₁ : g.close e now = g₁ at hclose ⊢
  generalize hg₂ : g'.close e now = g₂ at hclose ⊢
  obtain ⟨seenAny, firstNs, rfl, hclock, hfull⟩ := hgen
  obtain ⟨seenAny', firstNs', rfl, hclock', hfull'⟩ := hclose
  have hsame : SameResult clock full ρ (false, ⟨g, st, s⟩)
      (false, ⟨{ g with seenAny, firstNs }, st', t⟩) :=
    ⟨rfl, ⟨seenAny, firstNs, rfl, hclock, hfull⟩, hstats, hst⟩
  dsimp only
  split
  · exact hsame
  split
  · exact hsame
  split
  · exact hsame
  have hwidth : Generation.otherWidth { g₁ with seenAny := seenAny', firstNs := firstNs' } payload =
      g₁.otherWidth payload := rfl
  rw [hwidth]
  split
  · exact ⟨rfl, ⟨seenAny', firstNs', rfl, hclock', hfull'⟩, hstats, hst⟩
  · exact h.tryRecover now ⟨⟨seenAny', firstNs', rfl, hclock', hfull'⟩, hstats, hst⟩

/-- The same slot for two callers. -/
theorem slot_alike {d d' : Decoder} (hd : Decoder.Alike clock full d d') (genId : BitVec 32)
    (k now : ℕ) {s : σ} {t : τ} (hst : ρ s t) :
    Work.Same clock full ρ ⟨(d.slot genId k now).1, (d.slot genId k now).2, s⟩
      ⟨(d'.slot genId k now).1, (d'.slot genId k now).2, t⟩ := by
  have hheld : (d.held genId).Alike clock full (d'.held genId) := by
    rw [Decoder.held, Decoder.held, Decoder.place, Decoder.place, hd.gens]
    exact hd.slots _
  have hstats := hd.stats
  unfold Decoder.slot
  dsimp only
  generalize d.held genId = g at hheld ⊢
  generalize d'.held genId = g' at hheld ⊢
  obtain ⟨seenAny, firstNs, rfl, hclock, hfull⟩ := hheld
  dsimp only
  split
  · refine ⟨Generation.Alike.refl _, fun hc hf => ?_, hst⟩
    rw [hclock hc, hfull hf, hstats hc hf]
  · exact ⟨⟨seenAny, firstNs, rfl, hclock, hfull⟩, hstats, hst⟩

/-- **Any datagram**, for two callers. -/
theorem receive (h : Answers publish publish' ρ) {d d' : Decoder}
    (hd : Decoder.Alike clock full d d') (data : List Byte) (now : ℕ) {s : σ} {t : τ}
    (hst : ρ s t) :
    (d.receive publish data now s).1 = (d'.receive publish' data now t).1 ∧
      Decoder.Alike clock full (d.receive publish data now s).2.1
        (d'.receive publish' data now t).2.1 ∧
      ρ (d.receive publish data now s).2.2 (d'.receive publish' data now t).2.2 := by
  -- work on the slot is alike if it is alike on what the slot holds
  have hslot : ∀ {d d' : Decoder} genId k (f : Work σ → Bool × Work σ)
      (f' : Work τ → Bool × Work τ), Decoder.Alike clock full d d' →
      (∀ {W V}, Work.Same clock full ρ W V → SameResult clock full ρ (f W) (f' V)) →
        (d.onSlot genId k now s f).1 = (d'.onSlot genId k now t f').1 ∧
        Decoder.Alike clock full (d.onSlot genId k now s f).2.1 (d'.onSlot genId k now t f').2.1 ∧
        ρ (d.onSlot genId k now s f).2.2 (d'.onSlot genId k now t f').2.2 := by
    intro d d' genId k f f' hd hf
    obtain ⟨hok, hgen, hstats, hout⟩ := hf (slot_alike hd genId k now hst)
    refine ⟨hok, ⟨hd.gens, fun j => ?_, hstats⟩, hout⟩
    have hplace : d'.place genId = d.place genId := by
      rw [Decoder.place, Decoder.place, hd.gens]
    change Generation.Alike clock full ((d.slots.set (d.place genId) _).getD j {})
      ((d'.slots.set (d'.place genId) _).getD j {})
    rw [getD_set (d.place_lt genId), getD_set (d'.place_lt genId), hplace]
    split
    · exact hgen
    · exact hd.slots j
  unfold Decoder.receive
  dsimp only
  split_ifs
  · obtain ⟨hok, hnext⟩ := h data false 0 s t hst
    exact ⟨hok, hd, hnext⟩
  · exact ⟨rfl, hd, hst⟩
  · exact ⟨rfl, hd, hst⟩
  · exact hslot _ _ _ _ hd (h.receiveData _ _ now)
  · exact ⟨rfl, hd, hst⟩
  · refine hslot _ _ _ _ ⟨hd.gens, hd.slots, fun hc hf => ?_⟩ (h.receiveParity _ _ now)
    rw [Decoder.countParity, Decoder.countParity, hd.stats hc hf]

end Answers

variable {P : σ → Prop}

/-- The callback keeps `P`. -/
def Keeps (publish : Publish σ) (P : σ → Prop) : Prop :=
  ∀ frame recovered reason s, P s → P (publish frame recovered reason s).2

/-- A callback that keeps `P` answers itself on equal states that satisfy `P`. -/
theorem Keeps.answers (h : Keeps publish P) : Answers publish publish fun s t => s = t ∧ P s := by
  rintro frame recovered reason s _ ⟨rfl, hs⟩
  exact ⟨rfl, rfl, h frame recovered reason s hs⟩

theorem Keeps.publishRecovered (h : Keeps publish P) (blocks : List (ℕ × List Byte)) (W : Work σ)
    (hW : P W.out) : P (publishRecovered publish blocks W).2.out :=
  (h.answers.publishRecovered blocks (Work.Same.refl True True ⟨rfl, hW⟩)).2.out.2

theorem Keeps.tryRecover (h : Keeps publish P) {now : ℕ} (W : Work σ) (hW : P W.out) :
    P (tryRecover publish now W).2.out :=
  (h.answers.tryRecover now (Work.Same.refl True True ⟨rfl, hW⟩)).2.out.2

/-- **Any datagram.** What every call of the callback keeps, `receive` keeps. -/
theorem Keeps.receive (h : Keeps publish P) (d : Decoder) (data : List Byte) (now : ℕ) (s : σ)
    (hs : P s) : P (d.receive publish data now s).2.2 :=
  (h.answers.receive (Decoder.Alike.refl True True d) data now ⟨rfl, hs⟩).2.2.2

end Answers
end Fec
end PulseFanout
