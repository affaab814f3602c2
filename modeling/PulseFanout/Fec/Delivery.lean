import PulseFanout.Fec.Recovery

/-!
# Shards of genuine generations at the decoder

`receive` on a shard the encoder made, from any state of the decoder. The slot either holds
the shard's generation, at some stage, or it is started anew; `Decoder.StageOf` covers both.
`Decoder.receive_shard` then says that the call succeeds, that the slot moves to the next
stage, and that no other slot changes.
-/

namespace PulseFanout
namespace Fec

open Framework

variable {σ : Type} {publish : Publish σ} {P : σ → Prop} {O : Origin}

namespace Decoder

/-- How far `O` has come in `d`: the stage of the slot that holds it, or nothing yet. -/
structure StageOf (d : Decoder) (O : Origin) (S : Stage) : Prop where
  sim : d.Holds O.genId → Sim O (d.held O.genId) S
  fresh : ¬ d.Holds O.genId → S = Stage.empty

/-- `receive` on an envelope and a payload that pass the first checks. -/
theorem receive_envelope (d : Decoder) (e : Envelope) (payload : List Byte) (now : ℕ) (s : σ)
    (hmagic : e.magic = kMagic)
    (hok : ¬ (e.k = 0 ∨ e.k.toNat > kMaxGeneration ∨ e.closeReason.toNat > 2)) :
    d.receive publish (writeEnvelope e ++ payload) now s =
      if e.parityCount = 0 then
        if badData e payload then (false, d, s)
        else d.onSlot e.genId e.k.toNat now s (receiveData publish e payload now)
      else if badParity e payload then (false, d, s)
      else d.countParity.onSlot e.genId e.k.toNat now s (receiveParity publish e payload now) := by
  have hlong : ¬ ((writeEnvelope e ++ payload).length < kEnvelopeSize ∨ e.magic ≠ kMagic) := by
    rw [List.length_append, writeEnvelope_length, hmagic]
    simp
  have hdrop : (writeEnvelope e ++ payload).drop kEnvelopeSize = payload :=
    List.drop_left' (writeEnvelope_length e)
  rw [receive, readEnvelope_append, if_neg hlong, hdrop]
  simp only [if_neg hok]

end Decoder

/-- Before any parity, `receive` of one reads no more of the generation than `ensure`
leaves. -/
theorem receiveParity_congr (publish : Publish σ) {e : Envelope} (payload : List Byte) (now : ℕ)
    {g g' : Generation} (st : Stats) (s : σ)
    (hg : g.parityReceived = false ∧ g.received = [] ∧ e.k.toNat ≤ g.k)
    (hg' : g'.parityReceived = false ∧ g'.received = [] ∧ e.k.toNat ≤ g'.k)
    (hensure : g.ensure e.k.toNat = g'.ensure e.k.toNat) :
    receiveParity publish e payload now ⟨g, st, s⟩ =
      receiveParity publish e payload now ⟨g', st, s⟩ := by
  have hpast : ∀ {g : Generation}, g.parityReceived = false ∧ g.received = [] ∧ e.k.toNat ≤ g.k →
      ¬ (g.parityReceived = true ∧ (g.k ≠ e.k.toNat ∨ g.parityCount ≠ e.parityCount.toNat ∨
        g.closeReason ≠ e.closeReason.toNat)) ∧ ¬ e.k.toNat > g.k ∧
        ¬ (g.received.drop e.k.toNat).any id = true := by
    rintro g ⟨hrec, hnil, hle⟩
    rw [hrec, hnil]
    exact ⟨by simp, by omega, by simp⟩
  obtain ⟨h1, h2, h3⟩ := hpast hg
  obtain ⟨h1', h2', h3'⟩ := hpast hg'
  unfold receiveParity
  rw [if_neg h1, if_neg h2, if_neg h3, if_neg h1', if_neg h2', if_neg h3']
  dsimp only
  rw [Generation.close, hensure]
  rfl

/-- The stage a new slot starts from. -/
theorem Sim.start (O : Origin) (now : ℕ) :
    Sim O (.started O.genId O.encoder.k now) Stage.empty where
  active := rfl
  genId := rfl
  held_lt := fun _ hi => absurd hi (Finset.notMem_empty _)
  rows_lt := fun _ hr => absurd hr (Finset.notMem_empty _)
  parityReceived := rfl
  recovered := rfl
  k_eq := rfl
  lengths := rfl
  received := fun _ => rfl
  data := fun _ hi => absurd hi (Finset.notMem_empty _)
  closeReason := rfl
  parityCount := fun hr => absurd hr Finset.not_nonempty_empty
  parities := rfl

/-- A slot started by a parity shard is started with the number of frames; `ensure` comes to
the same as if it had been started with the encoder's `k`. -/
theorem start_ensure (O : Origin) (now : ℕ) :
    (Generation.started O.genId O.n now).ensure O.n =
      (Generation.started O.genId O.encoder.k now).ensure O.n := by
  have hn := O.n_le
  have hpos := O.n_pos
  have hdim : (if O.n = 0 ∨ O.n < O.n then O.n else O.n) =
      if O.encoder.k = 0 ∨ O.n < O.encoder.k then O.n else O.encoder.k := by
    split <;> split <;> omega
  simp only [Generation.ensure, Generation.shrink_eq, Generation.started, hdim]

namespace Decoder

variable {d : Decoder} {S : Stage} {s : σ}

/-- What the slot is worth to a data shard of `O`. -/
theorem StageOf.slot_data (h : d.StageOf O S) (now : ℕ) :
    Sim O (d.slot O.genId O.encoder.k now).1 S := by
  rcases d.slot_eq O.genId O.encoder.k now with ⟨hholds, hslot⟩ | ⟨hnot, st, hslot⟩
  · rw [hslot]
    exact h.sim hholds
  · rw [hslot, h.fresh hnot]
    exact Sim.start O now

/-- What the slot is worth to a parity shard of `O`. -/
theorem StageOf.slot_parity (h : d.StageOf O S) (publish : Publish σ) (row now : ℕ)
    (payload : List Byte) (s : σ) :
    ∃ g, Sim O g S ∧
      Fec.receiveParity publish (O.parityEnvelope row) payload now
          ⟨(d.slot O.genId O.n now).1, (d.slot O.genId O.n now).2, s⟩ =
        Fec.receiveParity publish (O.parityEnvelope row) payload now
          ⟨g, (d.slot O.genId O.n now).2, s⟩ := by
  have hk := O.parityEnvelope_k row
  rcases d.slot_eq O.genId O.n now with ⟨hholds, hslot⟩ | ⟨hnot, st, hslot⟩
  · rw [hslot]
    exact ⟨_, h.sim hholds, rfl⟩
  · rw [hslot, h.fresh hnot]
    refine ⟨_, Sim.start O now, ?_⟩
    refine receiveParity_congr publish payload now st s ⟨rfl, rfl, ?_⟩ ⟨rfl, rfl, ?_⟩ ?_
    · rw [hk]; exact le_rfl
    · rw [hk]; exact O.n_le
    · rw [hk]; exact start_ensure O now

/-- The header of a data shard passes the checks of `receive`. -/
theorem data_checks (O : Origin) {x : ℕ} (hx : x < O.n) :
    ¬ ((O.dataEnvelope x).k = 0 ∨ (O.dataEnvelope x).k.toNat > kMaxGeneration ∨
      (O.dataEnvelope x).closeReason.toNat > 2) ∧ ¬ badData (O.dataEnvelope x) (O.frame x) := by
  have hn := O.n_le
  have hk128 := O.k_le
  have hframe := O.frame_range hx
  obtain ⟨hindex, hk, hlen⟩ := O.dataEnvelope_toNat hx
  refine ⟨?_, ?_⟩
  · rintro (hzero | hbig | hclose)
    · exact absurd (hk.symm.trans (congrArg BitVec.toNat hzero)) (Nat.ne_of_gt O.encoder.k_range.1)
    · rw [hk, kMaxGeneration] at hbig
      omega
    · exact absurd (show 2 < 0 from hclose) (by decide)
  · rw [badData, hk, hindex, hlen]
    omega

/-- So does that of a parity shard, when the generation was closed for one of the three
reasons. -/
theorem parity_checks (O : Origin) (hreason : O.reason.toNat ≤ 2) {row : ℕ} (hrow : row < O.p) :
    ¬ ((O.parityEnvelope row).k = 0 ∨ (O.parityEnvelope row).k.toNat > kMaxGeneration ∨
      (O.parityEnvelope row).closeReason.toNat > 2) ∧
      ¬ badParity (O.parityEnvelope row) (O.payload row) ∧
      ¬ (O.parityEnvelope row).parityCount = 0 := by
  have hn := O.n_le
  have hnpos := O.n_pos
  have hk128 := O.k_le
  have hp16 := O.p_le
  have hwidth := O.width_le
  have hge : 2 ≤ O.width := by rw [Origin.width]; omega
  have hk := O.parityEnvelope_k row
  obtain ⟨hindex, hcount, hlen⟩ := O.parityEnvelope_toNat hrow
  refine ⟨?_, ?_, fun hzero => ?_⟩
  · rintro (hzero | hbig | hclose)
    · exact absurd (hk.symm.trans (congrArg BitVec.toNat hzero)) (Nat.ne_of_gt hnpos)
    · rw [hk, kMaxGeneration] at hbig
      omega
    · exact absurd hclose (Nat.not_lt.mpr hreason)
  · rw [badParity, hk, hindex, hlen, hcount, O.payload_length]
    omega
  · exact absurd (hcount.symm.trans (congrArg BitVec.toNat hzero)) (Nat.ne_of_gt O.p_pos)

/-- The generation is written back to its slot. -/
theorem onSlot_sim (d₀ : Decoder) (hgens : d₀.gens = d.gens) (hslots : d₀.slots = d.slots)
    {k now : ℕ} {f : Work σ → Bool × Work σ} {W : Work σ}
    (hf : f ⟨(d₀.slot O.genId k now).1, (d₀.slot O.genId k now).2, s⟩ = (true, W))
    (hsim : Sim O W.gen S) :
    ∃ d', d₀.onSlot O.genId k now s f = (true, d', W.out) ∧ OnlySlot d d' O.genId ∧
      d'.Holds O.genId ∧ Sim O (d'.held O.genId) S := by
  obtain ⟨d', hrun, honly, hheld⟩ := d₀.onSlot_eq O.genId k now s f hf
  refine ⟨d', hrun, ⟨honly.gens.trans hgens, fun j hj => ?_⟩, ?_, ?_⟩
  · rw [← hslots]
    exact honly.slots j (by rw [place, hgens]; exact hj)
  · rw [Holds, hheld]
    exact ⟨hsim.active, hsim.genId⟩
  · rw [hheld]
    exact hsim

/-- What `receive` does with a shard of `O` it takes, at stage `S`. -/
def Accepts (publish : Publish σ) (P : σ → Prop) (O : Origin) (d : Decoder) (S : Stage) (s : σ)
    (x now : ℕ) : Prop :=
  ∃ d' s', d.receive publish (O.shard x) now s = (true, d', s') ∧ OnlySlot d d' O.genId ∧
    d'.Holds O.genId ∧ Sim O (d'.held O.genId) (S.arrive O.n O.reason.toNat x).2 ∧
    s' = O.offerAll publish (S.arrive O.n O.reason.toNat x).1 s ∧ P s'

/-- A data shard, whatever the reason the generation is closed for later. -/
theorem receive_dataShard (hstage : d.StageOf O S) (hpub : Sim.Takes publish O P) (hP : P s)
    {x : ℕ} (hdata : x < O.n) (now : ℕ) : Accepts publish P O d S s x now := by
  obtain ⟨hok, hgood⟩ := data_checks O hdata
  have hplain : (O.dataEnvelope x).parityCount = 0 := rfl
  obtain ⟨W', hrun, hsim, hout, hP'⟩ := (hstage.slot_data now).receiveData
    (W := ⟨_, (d.slot O.genId O.encoder.k now).2, s⟩) hpub hP hdata now
  obtain ⟨d', hslot, honly, hholds, hsim'⟩ := onSlot_sim (d := d) d rfl rfl hrun hsim
  refine ⟨d', W'.out, ?_, honly, hholds, hsim', hout, hP'⟩
  rw [Origin.shard, if_pos hdata, Origin.dataShard_eq, receive_envelope d _ _ now s rfl hok,
    if_pos hplain, if_neg hgood, (O.dataEnvelope_toNat hdata).2.1]
  exact hslot

/-- A parity shard of a generation closed for one of the three reasons. -/
theorem receive_parityShard (hreason : O.reason.toNat ≤ 2) (hstage : d.StageOf O S)
    (hpub : Sim.Takes publish O P) (hP : P s) {row : ℕ} (hrow : row < O.p) (now : ℕ) :
    Accepts publish P O d S s (O.n + row) now := by
  obtain ⟨hok, hgood, hparity⟩ := parity_checks O hreason hrow
  -- the shard is counted before the slot is looked up
  have hstage' : d.countParity.StageOf O S := ⟨hstage.sim, hstage.fresh⟩
  obtain ⟨g, hsimg, heq⟩ := hstage'.slot_parity publish row now (O.payload row) s
  obtain ⟨W', hrun, hsim, hout, hP'⟩ := hsimg.receiveParity
    (W := ⟨g, (d.countParity.slot O.genId O.n now).2, s⟩) hpub hP hrow now
  obtain ⟨d', hslot, honly, hholds, hsim'⟩ :=
    onSlot_sim (d := d) d.countParity rfl rfl (heq.trans hrun) hsim
  refine ⟨d', W'.out, ?_, honly, hholds, hsim', hout, hP'⟩
  rw [Origin.shard, if_neg (by omega), Nat.add_sub_cancel_left, Origin.parityShard_eq,
    receive_envelope d _ _ now s rfl hok, if_neg hparity, if_neg hgood, O.parityEnvelope_k]
  exact hslot

/-- A parity shard of a generation closed for another reason is turned away. -/
theorem receive_unknownReason (hreason : 2 < O.reason.toNat) {x : ℕ} (hx : ¬ x < O.n) (now : ℕ) :
    d.receive publish (O.shard x) now s = (false, d, s) := by
  have hbad : (O.parityEnvelope (x - O.n)).k = 0 ∨
      (O.parityEnvelope (x - O.n)).k.toNat > kMaxGeneration ∨
      (O.parityEnvelope (x - O.n)).closeReason.toNat > 2 := .inr (.inr hreason)
  have hlong : ¬ ((O.parityShard (x - O.n)).length < kEnvelopeSize ∨
      (O.parityEnvelope (x - O.n)).magic ≠ kMagic) := by
    rw [Origin.parityShard_eq, List.length_append, writeEnvelope_length]
    simp [Origin.parityEnvelope]
  rw [Origin.shard, if_neg hx, receive]
  rw [show readEnvelope (O.parityShard (x - O.n)) = O.parityEnvelope (x - O.n) from
    readEnvelope_append _ _, if_neg hlong]
  dsimp only
  rw [if_pos hbad]

/-- **One shard of a genuine generation.** -/
theorem receive_shard (hreason : O.reason.toNat ≤ 2) (hstage : d.StageOf O S)
    (hpub : Sim.Takes publish O P) (hP : P s) {x : ℕ} (hx : x < O.n + O.p) (now : ℕ) :
    Accepts publish P O d S s x now := by
  by_cases hdata : x < O.n
  · exact receive_dataShard hstage hpub hP hdata now
  · obtain ⟨row, rfl⟩ : ∃ row, x = O.n + row := ⟨x - O.n, by omega⟩
    exact receive_parityShard hreason hstage hpub hP (by omega) now

end Decoder
end Fec
end PulseFanout
