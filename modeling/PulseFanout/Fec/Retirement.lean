import PulseFanout.Fec.Safety

/-!
# What `retire_all` would report

`finalize` counts a generation whose slot is given up, by `expire`, by an eviction or at the end
by `retire_all`, when parity had come and frames are missing. `Decoder.retired` is what the
counter will show once `retire_all` has run. Giving up a slot moves one from the slots to the
counter and leaves the number as it is (`retired_expire`, `retired_onSlot`), so a datagram
changes it only with the slot it names (`retired_receive`).
-/

namespace PulseFanout
namespace Fec

open Framework

variable {σ : Type}

/-! ### What `retire_all` would report -/

/-- `finalize` counts this generation. -/
def Generation.unrecoverable (g : Generation) : Bool :=
  !(!g.active || !g.parityReceived || g.recovered || g.unrecoverableCounted || g.k = 0) &&
    (List.range g.k).any fun i => !g.received.getD i false

theorem finalize_unrecoverableGens (g : Generation) (st : Stats) :
    (finalize g st).2.counters.unrecoverableGens =
      st.counters.unrecoverableGens + if g.unrecoverable then 1 else 0 := by
  have hmissing : (List.range g.k).countP (fun i => !g.received.getD i false) > 0 ↔
      ((List.range g.k).any fun i => !g.received.getD i false) = true := by
    rw [gt_iff_lt, List.countP_pos_iff, List.any_eq_true]
  unfold finalize Generation.unrecoverable
  split
  · next hdone => simp [hdone]
  · next hdone =>
    rw [Bool.not_eq_true] at hdone
    rw [hdone]
    split
    · next hsome =>
      rw [hmissing.mp hsome]
      rfl
    · next hnone =>
      rw [Bool.eq_false_iff.mpr (mt hmissing.mpr hnone)]
      rfl

/-- A loop that counts some of the slots. -/
theorem foldl_unrecoverableGens {f : Stats → Generation → Stats} {counts : Generation → Bool}
    (hf : ∀ st g, (f st g).counters.unrecoverableGens =
      st.counters.unrecoverableGens + if counts g then 1 else 0)
    (slots : List Generation) (st : Stats) :
    (slots.foldl f st).counters.unrecoverableGens =
      st.counters.unrecoverableGens + slots.countP counts := by
  induction slots generalizing st with
  | nil => rfl
  | cons g slots ih =>
    rw [List.foldl_cons, ih, hf, List.countP_cons]
    omega

namespace Decoder

/-- What the counter shows after `retire_all`. -/
def retired (d : Decoder) : ℕ := d.retireAll.stats.counters.unrecoverableGens

/-- The counter so far, and the slots that are still to be counted. -/
theorem retired_eq (d : Decoder) :
    d.retired = d.stats.counters.unrecoverableGens + d.slots.countP Generation.unrecoverable :=
  foldl_unrecoverableGens (fun st g => finalize_unrecoverableGens g st) d.slots d.stats

/-- `expire` counts early what `retire_all` would count. -/
theorem retired_expire (d : Decoder) (now ttl : ℕ) : (d.expire now ttl).retired = d.retired := by
  have hcount : ∀ st g,
      (if expired now ttl g then (finalize g st).2 else st).counters.unrecoverableGens =
        st.counters.unrecoverableGens +
          if g.unrecoverable && expired now ttl g then 1 else 0 := by
    intro st g
    cases expired now ttl g with
    | true => rw [Bool.and_true, if_pos rfl, finalize_unrecoverableGens]
    | false => simp
  have hstats : (d.expire now ttl).stats.counters.unrecoverableGens =
      d.stats.counters.unrecoverableGens +
        d.slots.countP fun g => g.unrecoverable && expired now ttl g :=
    foldl_unrecoverableGens hcount d.slots d.stats
  -- an expired slot is empty, and an empty slot is not counted
  have hslots : (d.expire now ttl).slots.countP Generation.unrecoverable =
      d.slots.countP fun g => g.unrecoverable && !expired now ttl g := by
    rw [Decoder.expire, List.countP_map]
    congr 1
    funext g
    rw [Function.comp_apply]
    cases expired now ttl g with
    | true => rw [if_pos rfl, Bool.not_true, Bool.and_false]; rfl
    | false => rw [if_neg Bool.false_ne_true, Bool.not_false, Bool.and_true]
  rw [retired_eq, retired_eq, hstats, hslots,
    List.countP_eq_countP_filter_add d.slots Generation.unrecoverable (expired now ttl),
    List.countP_filter, List.countP_filter, Nat.add_assoc]

/-- The generation is held, and `finalize` would count it. -/
def Charged (d : Decoder) (genId : BitVec 32) : Prop :=
  d.Holds genId ∧ (d.held genId).unrecoverable = true

instance (d : Decoder) (genId : BitVec 32) : Decidable (d.Charged genId) :=
  inferInstanceAs (Decidable (_ ∧ _))

/-- Putting something else into the slot of a generation. -/
theorem countP_store (d : Decoder) (genId : BitVec 32) (g : Generation) (st : Stats) :
    (d.store genId g st).slots.countP Generation.unrecoverable +
        (if (d.held genId).unrecoverable then 1 else 0) =
      d.slots.countP Generation.unrecoverable + if g.unrecoverable then 1 else 0 := by
  have hplace := d.place_lt genId
  have hheld : d.held genId = d.slots[d.place genId] := List.getD_eq_getElem _ _ hplace
  -- the subtraction in `countP_set` does not cut off
  have hcounted : (if (d.held genId).unrecoverable then 1 else 0) ≤
      d.slots.countP Generation.unrecoverable := by
    split
    · next hyes =>
      refine List.countP_pos_iff.mpr ⟨d.held genId, ?_, hyes⟩
      rw [hheld]
      exact List.getElem_mem hplace
    · exact Nat.zero_le _
  rw [store, List.countP_set hplace, ← hheld]
  omega

/-- An eviction, too, counts early what `retire_all` would count. What is left is the slot of
the generation that is worked on. -/
theorem retired_onSlot (d : Decoder) (genId : BitVec 32) (k now : ℕ) (s : σ)
    {f : Work σ → Bool × Work σ}
    (hf : ∀ W, (f W).2.stats.counters.unrecoverableGens = W.stats.counters.unrecoverableGens) :
    (d.onSlot genId k now s f).2.1.retired + (if d.Charged genId then 1 else 0) =
      d.retired +
        if ((d.onSlot genId k now s f).2.1.held genId).unrecoverable then 1 else 0 := by
  obtain ⟨d', hrun, -, hheld⟩ := d.onSlot_eq genId k now s f rfl
  have hd' : d' = d.store genId (f ⟨(d.slot genId k now).1, (d.slot genId k now).2, s⟩).2.gen
      (f ⟨(d.slot genId k now).1, (d.slot genId k now).2, s⟩).2.stats :=
    congrArg (fun r => r.2.1) hrun.symm
  have hstats := hf ⟨(d.slot genId k now).1, (d.slot genId k now).2, s⟩
  rw [hrun]
  show d'.retired + _ = d.retired + if (d'.held genId).unrecoverable then 1 else 0
  rw [hheld, hd', retired_eq, retired_eq]
  generalize f ⟨(d.slot genId k now).1, (d.slot genId k now).2, s⟩ = r at hstats ⊢
  have hstore := d.countP_store genId r.2.gen r.2.stats
  dsimp only [store] at hstore ⊢
  by_cases hholds : d.Holds genId
  · -- the slot is kept, and nothing is counted
    have hcharged : d.Charged genId ↔ (d.held genId).unrecoverable = true := and_iff_right hholds
    simp only [slot_of_holds hholds] at hstats
    simp only [hcharged]
    omega
  · -- what the slot held is finalized
    have hcharged : ¬ d.Charged genId := fun h => hholds h.1
    simp only [slot_of_not_holds hholds, finalize_unrecoverableGens] at hstats
    rw [if_neg hcharged]
    omega

end Decoder

/-! ### A shard counts nothing by itself -/

theorem countRecovered_unrecoverableGens (c : Counters) (reason : ℕ) :
    (c.countRecovered reason).unrecoverableGens = c.unrecoverableGens := by
  unfold Counters.countRecovered
  split_ifs <;> rfl

theorem countLatency_counters (st : Stats) (reason latency : ℕ) :
    (st.countLatency reason latency).counters = st.counters := by
  unfold Stats.countLatency
  split_ifs <;> rfl

theorem publishRecovered_unrecoverableGens (publish : Publish σ) (blocks : List (ℕ × List Byte))
    (W : Work σ) :
    (publishRecovered publish blocks W).2.stats.counters.unrecoverableGens =
      W.stats.counters.unrecoverableGens := by
  induction blocks generalizing W with
  | nil => rfl
  | cons b blocks ih =>
    obtain ⟨i, block⟩ := b
    rw [publishRecovered]
    split
    · rfl
    · rw [ih]
      exact countRecovered_unrecoverableGens _ _

theorem tryRecover_unrecoverableGens (publish : Publish σ) (now : ℕ) (W : Work σ) :
    (tryRecover publish now W).2.stats.counters.unrecoverableGens =
      W.stats.counters.unrecoverableGens := by
  have hrecovers := tryRecover_recovers publish now W
  generalize tryRecover publish now W = r at hrecovers ⊢
  cases hrecovers with
  | still => rfl
  | stopped _ hrun => rw [← publishRecovered_unrecoverableGens publish _ W, hrun]
  | finished _ hrun =>
    dsimp only [finishRecovery]
    rw [countLatency_counters, ← publishRecovered_unrecoverableGens publish _ W, hrun]

theorem receiveData_unrecoverableGens (publish : Publish σ) (e : Envelope) (payload : List Byte)
    (now : ℕ) (W : Work σ) :
    (receiveData publish e payload now W).2.stats.counters.unrecoverableGens =
      W.stats.counters.unrecoverableGens := by
  have htakes := receiveData_takes publish e payload now W
  generalize receiveData publish e payload now W = r at htakes ⊢
  cases htakes with
  | refused => rfl
  | beyond => rfl
  | unpublished => rfl
  | stored => exact tryRecover_unrecoverableGens publish now _

theorem receiveParity_unrecoverableGens (publish : Publish σ) (e : Envelope) (payload : List Byte)
    (now : ℕ) (W : Work σ) :
    (receiveParity publish e payload now W).2.stats.counters.unrecoverableGens =
      W.stats.counters.unrecoverableGens := by
  have htakes := receiveParity_takes publish e payload now W
  generalize receiveParity publish e payload now W = r at htakes ⊢
  cases htakes with
  | refused => rfl
  | width => rfl
  | stored => exact tryRecover_unrecoverableGens publish now _

/-- **Any datagram** moves what `retire_all` would report with the slot it names only. -/
theorem Decoder.retired_receive (d : Decoder) (publish : Publish σ) {data : List Byte} (now : ℕ)
    (s : σ) {genId : BitVec 32} (hid : (readEnvelope data).genId = genId) {d' : Decoder}
    (hd' : (d.receive publish data now s).2.1 = d') (hholds : d'.Holds genId) :
    d'.retired + (if d.Charged genId then 1 else 0) =
      d.retired + if d'.Charged genId then 1 else 0 := by
  have hcharged : d'.Charged genId ↔ (d'.held genId).unrecoverable = true := and_iff_right hholds
  have hreceives := receive_receives publish d data now s
  generalize d.receive publish data now s = r at hreceives hd'
  cases hreceives with
  | plain =>
    subst hd'
    rfl
  | rejected =>
    subst hd'
    rfl
  | data _ he =>
    subst hid he
    simp only [hcharged]
    rw [← hd']
    exact d.retired_onSlot _ _ now s (receiveData_unrecoverableGens publish _ _ now)
  | parity _ he =>
    subst hid he
    -- the shard is counted before the slot is looked up
    have hparity : d.countParity.retired = d.retired := by
      rw [retired_eq, retired_eq]
      rfl
    simp only [hcharged]
    rw [← hd', ← hparity]
    exact d.countParity.retired_onSlot _ _ now s (receiveParity_unrecoverableGens publish _ _ now)

end Fec
end PulseFanout
