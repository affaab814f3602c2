import PulseFanout.Dedupe.Verdict
import PulseFanout.Framework.Missing

/-!
# What the counters of the dedupe window say

`lost_confirmed` is raised inside the loop of `slide_to`, one number at a time, while
`advance_contiguous` moves the same base and counts nothing. Together they are exact
(`loss_accounting`): the counter is the number of sequence numbers between the first one observed
and the base that were never accepted.

The invariant is `Counted`, and it is kept by one round of either loop: `slide_to` tests the bit of
the base before it passes it, and that bit says whether the base was accepted (`Stands`);
`advance_contiguous` passes accepted numbers only.
-/

namespace PulseFanout
namespace Dedupe

open Framework

variable {w : WindowSize}

namespace Window

/-- The verdicts given so far. -/
def verdicts (W : Window w) : ℕ :=
  W.counters.accepted + W.counters.duplicates + W.counters.tooOld

/-! ### What each step does to the counters -/

theorem opened_verdicts (W : Window w) (seq : ℕ) : (W.opened seq).verdicts = W.verdicts := by
  unfold verdicts opened noteJump start
  split <;> split <;> rfl

theorem opened_lost (W : Window w) (seq : ℕ) :
    (W.opened seq).counters.lostConfirmed = W.counters.lostConfirmed := by
  unfold opened noteJump start
  split <;> split <;> rfl

theorem slideStep_lost (W : Window w) : W.slideStep.counters.lostConfirmed =
    W.counters.lostConfirmed + if W.has W.baseSeq then 0 else 1 := by
  rw [← test_eq]
  unfold slideStep
  split <;> rfl

theorem slide_verdicts (W : Window w) (k : ℕ) : (slideStep^[k] W).verdicts = W.verdicts := by
  induction k with
  | zero => rfl
  | succ k ih =>
    rw [Function.iterate_succ_apply', ← ih]
    unfold verdicts
    rfl

/-- A slide that is counted. -/
theorem slid_tallies (V : Window w) :
    let V' : Window w :=
      { V with counters := { V.counters with windowSlides := V.counters.windowSlides + 1 } }
    Agree V' V ∧ V'.verdicts = V.verdicts ∧
      V'.counters.lostConfirmed = V.counters.lostConfirmed :=
  ⟨⟨rfl, rfl, rfl⟩, by unfold verdicts; rfl, rfl⟩

/-- `slide_to` runs some number of rounds, or is not called. -/
theorem makeRoom_slides (W : Window w) (seq : ℕ) :
    ∃ k, (W.baseSeq < wrap → W.baseSeq + k < wrap) ∧
      Agree (W.makeRoom seq).2 (slideStep^[k] W) ∧
      (W.makeRoom seq).2.verdicts = W.verdicts ∧
      (W.makeRoom seq).2.counters.lostConfirmed = (slideStep^[k] W).counters.lostConfirmed := by
  unfold makeRoom
  split
  · have hlt := Nat.mod_lt (seq + wrap - w.val + 1) (show 0 < wrap by decide)
    generalize (seq + wrap - w.val + 1) % wrap = target at hlt ⊢
    obtain ⟨hagree, hverdicts, hlost⟩ := slid_tallies (W.slideTo target)
    refine ⟨target - W.baseSeq, fun hbase => by omega, hagree, ?_, hlost⟩
    exact hverdicts.trans (slide_verdicts W _)
  · exact ⟨0, id, ⟨rfl, rfl, rfl⟩, rfl, rfl⟩

theorem advanceLoop_counters (fuel : ℕ) (W : Window w) :
    (advanceLoop fuel W).counters = W.counters := by
  induction fuel generalizing W with
  | zero => rfl
  | succ fuel ih =>
    rw [advanceLoop]
    split
    · exact ih W.advanceStep
    · rfl

/-- **Every call gives one verdict.** -/
theorem observe_verdicts (W : Window w) (seq : ℕ) :
    (W.observe seq).2.verdicts = W.verdicts + 1 := by
  have hopened := W.opened_verdicts seq
  obtain ⟨-, -, -, hroom, -⟩ := (W.opened seq).makeRoom_slides seq
  rw [observe_eq, ← hopened]
  dsimp only
  split
  · unfold verdicts
    dsimp only
    omega
  · rw [← hroom]
    generalize ((W.opened seq).makeRoom seq).2 = V
    unfold verdicts
    split
    · dsimp only [noteDepth]
      omega
    · rw [advanceContiguous, advanceLoop_counters]
      dsimp only [noteDepth]
      omega

end Window

/-! ### The losses -/

/-- The losses counted are those there have been. -/
structure Counted (W : Window w) (first : ℕ) (accepted : List ℕ) : Prop where
  first_le : first ≤ W.baseSeq
  lost : W.counters.lostConfirmed = (missing first W.baseSeq accepted).card

namespace Counted

variable {W V : Window w} {first : ℕ} {accepted : List ℕ}

theorem congr (h : Counted W first accepted) (hbase : V.baseSeq = W.baseSeq)
    (hlost : V.counters.lostConfirmed = W.counters.lostConfirmed) : Counted V first accepted := by
  refine ⟨?_, ?_⟩
  · rw [hbase]; exact h.first_le
  · rw [hlost, hbase]; exact h.lost

/-- One round of `slide_to`. -/
theorem slideStep (h : Counted W first accepted) (hstands : Stands W accepted)
    (hroom : W.baseSeq + 1 < wrap) : Counted W.slideStep first accepted := by
  have hge := w.ge
  have hbase : W.slideStep.baseSeq = W.baseSeq + 1 := by
    rw [Window.slideStep_baseSeq, Nat.mod_eq_of_lt hroom]
  refine ⟨?_, ?_⟩
  · rw [hbase]
    exact Nat.le_succ_of_le h.first_le
  · -- the bit of the base says whether it was accepted
    have hbit := hstands.has_iff W.baseSeq le_rfl (by omega)
    rw [hbase, card_missing_succ h.first_le, Window.slideStep_lost, h.lost]
    simp only [hbit]

/-- `slide_to`. -/
theorem slide (h : Counted W first accepted) (hstands : Stands W accepted) (k : ℕ)
    (hroom : W.baseSeq + k < wrap) : Counted (Window.slideStep^[k] W) first accepted := by
  induction k with
  | zero => exact h
  | succ k ih =>
    obtain ⟨hbase, -, hmoved⟩ := hstands.slide k (by omega)
    rw [Function.iterate_succ_apply']
    exact (ih (by omega)).slideStep hmoved (by omega)

theorem makeRoom (h : Counted W first accepted) (hstands : Stands W accepted)
    (hbase : W.baseSeq < wrap) (seq : ℕ) : Counted (W.makeRoom seq).2 first accepted := by
  obtain ⟨k, hroom, hagree, -, hlost⟩ := W.makeRoom_slides seq
  exact (h.slide hstands k (hroom hbase)).congr hagree.baseSeq hlost

theorem set (h : Counted W first accepted) {seq : ℕ} (hseq : W.baseSeq ≤ seq) :
    Counted (W.set seq) first (accepted ++ [seq]) := by
  refine ⟨h.first_le, ?_⟩
  rw [Window.set_baseSeq, missing_concat hseq]
  exact h.lost

/-- `advance_contiguous`. -/
theorem advanceLoop (fuel : ℕ) (h : Counted W first accepted) (hcov : Covers W first accepted) :
    Counted (Window.advanceLoop fuel W) first accepted := by
  induction fuel generalizing W with
  | zero => exact h
  | succ fuel ih =>
    have hone := (hcov.advanceLoop 1 W).1
    rw [Window.advanceLoop, Window.advanceLoop] at hone
    rw [Window.advanceLoop]
    split
    · next htest =>
      rw [if_pos htest] at hone
      have hge := w.ge
      have hbase : W.baseSeq ∈ accepted := by
        rw [Window.test_eq] at htest
        exact (hcov.has_iff _ le_rfl (by omega)).mp htest
      have hclear := hcov.clear _ hbase
      have hnext : W.advanceStep.baseSeq = W.baseSeq + 1 := by
        rw [Window.advanceStep_baseSeq, Nat.mod_eq_of_lt (by omega)]
      refine ih ⟨hone.first_le, ?_⟩ hone
      -- the number passed was accepted
      rw [hnext, card_missing_succ h.first_le, if_pos hbase]
      exact h.lost
    · exact h

end Counted

/-! ### Runs -/

/-- The counters go with the ledger. -/
structure Accounts (W : Window w) (L : Ledger) : Prop extends Tracks W L where
  idle_lost : L.first = none → W.counters.lostConfirmed = 0
  counted : ∀ f, L.first = some f → Counted W f L.accepted

namespace Accounts

variable {W : Window w} {L : Ledger}

theorem fresh (w : WindowSize) : Accounts (Window.fresh w) Ledger.empty :=
  ⟨Tracks.fresh w, fun _ => rfl, fun _ h => nomatch h⟩

theorem opened (h : Accounts W L) (seq : ℕ) :
    Counted (W.opened seq) (L.first.getD seq) L.accepted := by
  have hjump := Window.noteJump_agree (W.start seq) seq
  have hlost := W.opened_lost seq
  cases hfirst : L.first with
  | none =>
    obtain ⟨hinit, -, -⟩ := h.idle hfirst
    have hbase : (W.opened seq).baseSeq = seq := by
      rw [Window.opened, hjump.baseSeq, Window.start, hinit]
      rfl
    refine ⟨hbase.ge, ?_⟩
    rw [hlost, h.idle_lost hfirst, hbase, Option.getD_none, missing_self]
    rfl
  | some f =>
    have hstart : W.start seq = W := by rw [Window.start, (h.live f hfirst).1, if_pos rfl]
    refine (h.counted f hfirst).congr ?_ hlost
    rw [Window.opened, hjump.baseSeq, hstart]

/-- **One observation.** -/
theorem observe (h : Accounts W L) {seq : ℕ} (hclear : seq + w.val < wrap) :
    Accounts (W.observe seq).2 (L.observe w seq) := by
  obtain ⟨hiff, hkeep, htracks⟩ := h.toTracks.observe hclear
  obtain ⟨-, hcov⟩ := h.toTracks.opened hclear
  have hopened := h.opened seq
  refine ⟨htracks, nofun, fun f hf => ?_⟩
  rw [← Option.some.inj hf]
  have hacc : (L.observe w seq).accepted =
      if (W.observe seq).1.accepts then L.accepted ++ [seq] else L.accepted := by
    rw [Ledger.observe]
    simp only [hiff]
  rw [hacc, Window.observe_eq]
  dsimp only
  split
  · exact hopened.congr rfl rfl
  · next hge =>
    have hge := not_lt.mp hge
    obtain ⟨haccepts, hroom⟩ := hcov.makeRoom hge hclear
    have hroomy := hopened.makeRoom hcov.toStands (by omega) seq
    split
    · exact hroomy.congr rfl rfl
    · refine Counted.advanceLoop w.val ((hroomy.set hroom.le_seq).congr rfl rfl) ?_
      exact (hroom.record hcov hclear).congr ⟨rfl, rfl, rfl⟩

end Accounts

namespace Window

theorem run_accounts (seqs : List ℕ) (h : ∀ s ∈ seqs, s + w.val < wrap) :
    Accounts (run w seqs).1 (Ledger.run w seqs) := by
  induction seqs using List.reverseRecOn with
  | nil => exact Accounts.fresh w
  | append_singleton seqs seq ih =>
    rw [run_concat, Ledger.run_concat]
    exact (ih fun s hs => h s (List.mem_append_left _ hs)).observe
      (h seq (List.mem_append_right _ (List.mem_singleton_self seq)))

theorem run_verdicts (seqs : List ℕ) : (run w seqs).1.verdicts = seqs.length := by
  induction seqs using List.reverseRecOn with
  | nil => rfl
  | append_singleton seqs seq ih =>
    rw [run_concat, List.length_append, List.length_singleton, ← ih]
    exact observe_verdicts _ seq

end Window

namespace Ledger

theorem accepted_mono (seqs more : List ℕ) {a : ℕ} (h : a ∈ (run w seqs).accepted) :
    a ∈ (run w (seqs ++ more)).accepted := by
  induction more using List.reverseRecOn with
  | nil => rw [List.append_nil]; exact h
  | append_singleton more seq ih =>
    rw [← List.append_assoc, run_concat, observe]
    dsimp only
    split
    · exact List.mem_append_left _ ih
    · exact ih

/-- What is past the cutoff stays out. -/
theorem not_accepted_later {seqs : List ℕ} {s a : ℕ} (hs : s ∉ (run w seqs).accepted)
    (ha : a ∈ (run w seqs).accepted) (hcut : s + w.val ≤ a) (more : List ℕ) :
    s ∉ (run w (seqs ++ more)).accepted := by
  induction more using List.reverseRecOn with
  | nil => rw [List.append_nil]; exact hs
  | append_singleton more seq ih =>
    rw [← List.append_assoc, run_concat, observe]
    dsimp only
    split
    · next hadm =>
      rw [List.mem_append, List.mem_singleton]
      rintro (hmem | rfl)
      · exact ih hmem
      · exact absurd (hadm.2.2 a (accepted_mono seqs more ha)) (not_lt.mpr hcut)
    · exact ih

end Ledger

/-- **Loss accounting.** After any observations of numbers a window's size clear of `2 ^ 64`,

* every call has given one verdict;
* `lost_confirmed` is the number of sequence numbers from the first one observed up to the base
  that were never accepted;
* none of these is accepted later;
* the bits of the bitmap are the accepted numbers of the window. -/
theorem Window.loss_accounting (w : WindowSize) (first : ℕ) (rest : List ℕ)
    (hsmall : ∀ s ∈ first :: rest, s < wrap - w.val) :
    let W := (run w (first :: rest)).1
    let accepted := (run w (first :: rest)).2
    W.counters.accepted + W.counters.duplicates + W.counters.tooOld = (first :: rest).length ∧
    W.counters.lostConfirmed =
      ((Finset.Ico first W.baseSeq).filter (· ∉ accepted)).card ∧
    (∀ s, first ≤ s → s < W.baseSeq → s ∉ accepted →
      ∀ more, (∀ t ∈ more, t < wrap - w.val) → s ∉ (run w (first :: rest ++ more)).2) ∧
    ∀ s, W.baseSeq ≤ s → s < W.baseSeq + w.val → (W.test s = true ↔ s ∈ accepted) := by
  intro W accepted
  have hclear : ∀ s, s < wrap - w.val → s + w.val < wrap := fun s hs => by omega
  have hclears : ∀ s ∈ first :: rest, s + w.val < wrap := fun s hs => hclear s (hsmall s hs)
  obtain ⟨htracks, hacc⟩ := run_tracks (first :: rest) hclears
  have hacc : accepted = (Ledger.run w (first :: rest)).accepted := hacc
  have hfirst : (Ledger.run w (first :: rest)).first = some first := Ledger.run_first _
  have hcov := (htracks.live first hfirst).2
  refine ⟨run_verdicts (first :: rest), ?_, ?_, ?_⟩
  · rw [hacc]
    exact ((run_accounts (first :: rest) hclears).counted first hfirst).lost
  · intro s hle hlt hnot more hmore
    have hclears' : ∀ t ∈ first :: rest ++ more, t + w.val < wrap := by
      intro t ht
      rcases List.mem_append.mp ht with ht | ht
      · exact hclears t ht
      · exact hclear t (hmore t ht)
    rw [(run_tracks _ hclears').2]
    rw [hacc] at hnot
    -- below the base and not accepted: cut off by a number accepted since
    rcases hcov.past s hle hlt with hmem | ⟨a, ha, hcut⟩
    · exact absurd hmem hnot
    · exact Ledger.not_accepted_later hnot ha hcut more
  · intro s hle hlt
    rw [test_eq, hacc]
    exact hcov.has_iff s hle hlt

/-- After 10, 11 and 80 the numbers 12 to 16 are lost. -/
theorem Window.five_numbers_lost :
    (run sixtyFour [10, 11, 80]).1.counters.lostConfirmed = 5 ∧
      12 ∉ (run sixtyFour [10, 11, 80, 12]).2 := by
  obtain ⟨-, hlost, hlate, -⟩ := loss_accounting sixtyFour 10 [11, 80] (by decide)
  refine ⟨hlost.trans (by decide +kernel), ?_⟩
  exact hlate 12 (by decide) (by decide +kernel) (by decide +kernel) [12] (by decide)

end Dedupe
end PulseFanout
