import PulseFanout.Dedupe.Verdict

/-!
# The dedupe window at the top of the sequence range

Sequence numbers come from the network, and nothing keeps them away from `2 ^ 64 - 1`. The sum
`base_seq + size` wraps as soon as the base is one of the last `size` numbers, and that does no
harm: the comparison then sends every number to `slide_to`, whose target lies below the base.
What does harm is the increment of the base itself. Once the base has passed `2 ^ 64 - 1` it is
zero, and the window takes all numbers again (`top_closed_repeats`).

The base passes a number of the last `size` only when it was accepted, since `slide_to` never goes
that far. So the window is right as long as one of them, not below the first number observed, has
not been observed (`accepted_once_while_top_open`). The invariant is `Held`.
-/

namespace PulseFanout
namespace Dedupe

variable {w : WindowSize}

/-- Twice a window fits into the range. -/
theorem WindowSize.two_mul_le (w : WindowSize) : 2 * w.val ≤ wrap := by
  obtain ⟨e, he⟩ := w.pow
  have hlt := w.lt
  rw [he] at hlt ⊢
  have hexp : e + 1 ≤ 64 := (Nat.pow_lt_pow_iff_right (by decide)).mp hlt
  rw [← Nat.pow_succ']
  exact Nat.pow_le_pow_right (by decide) hexp

/-- The base is held back by a number that was not observed. -/
structure Held (W : Window w) (top : ℕ) (accepted : List ℕ) : Prop extends
    Stands W accepted where
  base_le : W.baseSeq ≤ top
  not_top : top ∉ accepted

namespace Held

variable {W V : Window w} {top seq : ℕ} {accepted : List ℕ}

theorem congr (h : Held W top accepted) (hsame : Window.Agree V W) : Held V top accepted := by
  refine ⟨h.toStands.congr hsame, ?_, h.not_top⟩
  rw [hsame.baseSeq]
  exact h.base_le

/-- A window with no bit set, before anything was accepted. -/
theorem of_clear (hhas : ∀ s, W.has s = false) (hle : W.baseSeq ≤ top) : Held W top [] := by
  refine ⟨⟨fun a ha => absurd ha List.not_mem_nil, fun s _ _ => ?_⟩, hle, List.not_mem_nil⟩
  rw [hhas]
  exact iff_of_false Bool.false_ne_true List.not_mem_nil

/-- The window of the first number. -/
theorem opened_fresh (hle : seq ≤ top) : Held ((Window.fresh w).opened seq) top [] := by
  have hjump := Window.noteJump_agree ((Window.fresh w).start seq) seq
  have hhas : ∀ s, ((Window.fresh w).start seq).has s = false := Window.has_fresh w
  exact (of_clear hhas hle).congr hjump

/-- Sliding ends at the last `size` numbers at most. -/
theorem makeRoom (h : Held W top accepted) (htop : wrap - w.val ≤ top ∧ top < wrap)
    (hseq : W.baseSeq ≤ seq) (hlt : seq < wrap) :
    (W.makeRoom seq).1.accepts = true ∧ (W.makeRoom seq).2.initialized = W.initialized ∧
      W.baseSeq ≤ (W.makeRoom seq).2.baseSeq ∧ (W.makeRoom seq).2.baseSeq ≤ seq ∧
      seq < (W.makeRoom seq).2.baseSeq + w.val ∧ Held (W.makeRoom seq).2 top accepted := by
  have hge := w.ge
  have hhalf := w.two_mul_le
  have hbase := h.base_le
  unfold Window.makeRoom
  split
  · next hpast =>
    -- either nothing wraps, or the base is already among the last numbers
    have hlow : w.val ≤ seq ∧ (W.baseSeq + w.val ≤ seq ∨ wrap ≤ W.baseSeq + w.val) := by
      by_cases hroom : W.baseSeq + w.val < wrap
      · rw [Nat.mod_eq_of_lt hroom] at hpast
        omega
      · omega
    have htarget : (seq + wrap - w.val + 1) % wrap = seq - w.val + 1 := by
      rw [show seq + wrap - w.val + 1 = seq - w.val + 1 + wrap by omega, Nat.add_mod_right,
        Nat.mod_eq_of_lt (by omega)]
    rw [htarget]
    obtain ⟨hmoved, hinit, hstands⟩ :=
      h.toStands.slide (seq - w.val + 1 - W.baseSeq) (by omega)
    change _ ∧ (Window.slideStep^[_] W).initialized = _ ∧
      W.baseSeq ≤ (Window.slideStep^[_] W).baseSeq ∧ (Window.slideStep^[_] W).baseSeq ≤ seq ∧
      seq < (Window.slideStep^[_] W).baseSeq + w.val ∧ _
    refine ⟨rfl, hinit, by omega, by omega, by omega, ⟨⟨hstands.below, hstands.has_iff⟩, ?_,
      h.not_top⟩⟩
    change (Window.slideStep^[_] W).baseSeq ≤ top
    omega
  · next hin =>
    have hmod := Nat.mod_le (W.baseSeq + w.val) wrap
    exact ⟨rfl, rfl, le_rfl, hseq, Nat.lt_of_lt_of_le (not_le.mp hin) hmod, h⟩

/-- `advance_contiguous` stops at the number that was not observed. -/
theorem advanceLoop (fuel : ℕ) (h : Held W top accepted) (htop : top < wrap) :
    W.baseSeq ≤ (Window.advanceLoop fuel W).baseSeq ∧
      (Window.advanceLoop fuel W).initialized = W.initialized ∧
      Held (Window.advanceLoop fuel W) top accepted := by
  induction fuel generalizing W with
  | zero => exact ⟨le_rfl, rfl, h⟩
  | succ fuel ih =>
    rw [Window.advanceLoop, Window.test_eq]
    split
    · next hhas =>
      have hge := w.ge
      have hbase : W.baseSeq ∈ accepted := (h.has_iff _ le_rfl (by omega)).mp hhas
      have hne : W.baseSeq ≠ top := fun heq => h.not_top (heq ▸ hbase)
      have hle := h.base_le
      obtain ⟨hnext, hstands⟩ := h.toStands.pass (by omega) (Window.advanceStep_baseSeq W)
        (Window.has_advanceStep W)
      obtain ⟨hmono, hinit, hheld⟩ := ih ⟨hstands, by omega, h.not_top⟩
      exact ⟨by omega, hinit, hheld⟩
    · exact ⟨le_rfl, rfl, h⟩

/-- **One observation**, of another number than the one that holds the base back. -/
theorem observe (h : Held (W.opened seq) top accepted)
    (htop : wrap - w.val ≤ top ∧ top < wrap) (hlt : seq < wrap) (hne : seq ≠ top) :
    ((W.observe seq).1.accepts = true → seq ∉ accepted) ∧
      (W.opened seq).baseSeq ≤ (W.observe seq).2.baseSeq ∧
      (W.observe seq).2.initialized = (W.opened seq).initialized ∧
      Held (W.observe seq).2 top
        (if (W.observe seq).1.accepts then accepted ++ [seq] else accepted) := by
  rcases W.observe_cases seq with ⟨hold, hres, hsame⟩ | ⟨hbase, hhas, hres, hsame⟩ |
    ⟨hbase, hhas, hres, V, hsame, hstate⟩
  · rw [hres]
    exact ⟨nofun, hsame.baseSeq.ge, hsame.initialized, h.congr hsame⟩
  · obtain ⟨-, hinit, hmono, -, -, hroom⟩ := h.makeRoom htop hbase hlt
    rw [hres]
    refine ⟨nofun, ?_, hsame.initialized.trans hinit, hroom.congr hsame⟩
    rw [hsame.baseSeq]
    exact hmono
  · obtain ⟨hacc, hinit, hmono, hle, hend, hroom⟩ := h.makeRoom htop hbase hlt
    have hnew : seq ∉ accepted := fun hmem => by
      rw [(hroom.has_iff seq hle hend).mpr hmem] at hhas
      cases hhas
    -- the bit is set, and the base still waits for the number on top
    have hset : Held V top (accepted ++ [seq]) := by
      refine congr ⟨hroom.toStands.set hle hend, hroom.base_le, ?_⟩ hsame
      rw [List.mem_append, List.mem_singleton]
      rintro (hmem | heq)
      · exact h.not_top hmem
      · exact hne heq.symm
    obtain ⟨hmono', hinit', hheld⟩ := hset.advanceLoop w.val htop.2
    have hbaseV : V.baseSeq = ((W.opened seq).makeRoom seq).2.baseSeq := hsame.baseSeq
    rw [hres, hacc, hstate, if_pos rfl]
    refine ⟨fun _ => hnew, ?_, ?_, hheld⟩
    · rw [hbaseV] at hmono'
      exact hmono.trans hmono'
    · exact hinit'.trans (hsame.initialized.trans hinit)

end Held

namespace Window

/-! ### Runs -/

/-- The numbers leave the top of the range open. -/
structure Open (w : WindowSize) (top : ℕ) (seqs : List ℕ) : Prop where
  range : ∀ s ∈ seqs, s < wrap
  last : wrap - w.val ≤ top ∧ top < wrap
  first : ∀ f ∈ seqs.head?, f ≤ top
  not_mem : top ∉ seqs

theorem Open.of_prefix {top : ℕ} {seqs pre : List ℕ} (h : Open w top seqs) (hpre : pre <+: seqs) :
    Open w top pre := by
  obtain ⟨post, rfl⟩ := hpre
  refine ⟨fun s hs => h.range s (List.mem_append_left _ hs), h.last, fun f hf => ?_,
    fun hmem => h.not_mem (List.mem_append_left _ hmem)⟩
  refine h.first f ?_
  rw [List.head?_append, Option.mem_def.mp hf]
  rfl

/-- What a run leaves, and what its last call does. -/
structure Ran (w : WindowSize) (top : ℕ) (seqs : List ℕ) : Prop where
  nodup : (run w seqs).2.Nodup
  state : seqs = [] ∨ (run w seqs).1.initialized = true ∧ Held (run w seqs).1 top (run w seqs).2

/-- The window on which the next decision is taken. -/
theorem Ran.opened {top : ℕ} {seqs : List ℕ} (h : Ran w top seqs) (seq : ℕ)
    (hfirst : seqs = [] → seq ≤ top) :
    (run w seqs).1.baseSeq ≤ ((run w seqs).1.opened seq).baseSeq ∧
      ((run w seqs).1.opened seq).initialized = true ∧
      Held ((run w seqs).1.opened seq) top (run w seqs).2 := by
  rcases h.state with rfl | ⟨hinit, hheld⟩
  · have hjump := noteJump_agree ((fresh w).start seq) seq
    exact ⟨Nat.zero_le _, hjump.initialized, Held.opened_fresh (hfirst rfl)⟩
  · have hstart : (run w seqs).1.start seq = (run w seqs).1 := by rw [start, hinit, if_pos rfl]
    have hjump := noteJump_agree ((run w seqs).1.start seq) seq
    rw [hstart] at hjump
    rw [Window.opened, hstart]
    exact ⟨hjump.baseSeq.ge, hjump.initialized.trans hinit, hheld.congr hjump⟩

/-- **One more call.** -/
theorem Ran.concat {top seq : ℕ} {seqs : List ℕ} (h : Ran w top seqs)
    (hopen : Open w top (seqs ++ [seq])) :
    (run w seqs).1.baseSeq ≤ (run w (seqs ++ [seq])).1.baseSeq ∧ Ran w top (seqs ++ [seq]) := by
  have hlast : seq ∈ seqs ++ [seq] := List.mem_append_right _ (List.mem_singleton_self seq)
  obtain ⟨hbase, hinit, hheld⟩ := h.opened seq fun hnil => by
    subst hnil
    exact hopen.first seq rfl
  obtain ⟨hnew, hgrow, hinit', hnext⟩ := hheld.observe hopen.last (hopen.range seq hlast)
    fun heq => hopen.not_mem (heq ▸ hlast)
  refine ⟨?_, ?_, Or.inr ?_⟩ <;> rw [run_concat, tally]
  · exact hbase.trans hgrow
  · dsimp only
    split
    · next hacc =>
      rw [← List.concat_eq_append]
      exact h.nodup.concat (hnew hacc)
    · exact h.nodup
  · exact ⟨hinit'.trans hinit, hnext⟩

theorem Open.ran {top : ℕ} {seqs : List ℕ} (h : Open w top seqs) : Ran w top seqs := by
  induction seqs using List.reverseRecOn with
  | nil => exact ⟨List.nodup_nil, Or.inl rfl⟩
  | append_singleton seqs seq ih => exact ((ih (h.of_prefix (List.prefix_append _ _))).concat h).2

/-- **While the top of the range is open**, that is while one of the last `size` numbers, not
below the first number observed, has not been observed: no number is accepted twice, and no call
moves the base back. -/
theorem accepted_once_while_top_open (w : WindowSize) (seqs : List ℕ) (top : ℕ)
    (hrange : ∀ s ∈ seqs, s < wrap) (htop : wrap - w.val ≤ top ∧ top < wrap)
    (hfirst : ∀ f ∈ seqs.head?, f ≤ top) (hopen : top ∉ seqs) :
    (run w seqs).2.Nodup ∧
      ∀ pre seq post, seqs = pre ++ seq :: post →
        (run w pre).1.baseSeq ≤ (run w (pre ++ [seq])).1.baseSeq := by
  have hopen : Open w top seqs := ⟨hrange, htop, hfirst, hopen⟩
  refine ⟨hopen.ran.nodup, fun pre seq post hsplit => ?_⟩
  have hlast : Open w top (pre ++ [seq]) := hopen.of_prefix ⟨post, by simp [hsplit]⟩
  exact ((hlast.of_prefix (List.prefix_append _ _)).ran.concat hlast).1

/-- The last number but one is missing, and the largest is not accepted again. -/
theorem largest_accepted_once :
    (run sixtyFour [wrap - 3, wrap - 1, wrap - 1]).2 = [wrap - 3, wrap - 1] ∧
      [wrap - 3, wrap - 1].Nodup := by
  have hrun : (run sixtyFour [wrap - 3, wrap - 1, wrap - 1]).2 = [wrap - 3, wrap - 1] := by
    decide +kernel
  refine ⟨hrun, ?_⟩
  rw [← hrun]
  exact (accepted_once_while_top_open sixtyFour [wrap - 3, wrap - 1, wrap - 1] (wrap - 2)
    (by decide) (by decide) (by decide) (by decide)).1

/-! ### Past the top -/

/-- A window whose base has come round to zero, and which has nothing marked, takes the largest
number. -/
theorem takes_largest {W : Window w} (hinit : W.initialized = true) (hbase : W.baseSeq = 0)
    (hhas : ∀ s, W.has s = false) : (W.observe (wrap - 1)).1.accepts = true := by
  have hgt := w.lt
  have hstart : W.start (wrap - 1) = W := by rw [start, hinit, if_pos rfl]
  have hjump := noteJump_agree W (wrap - 1)
  have hzero : (W.opened (wrap - 1)).baseSeq = 0 := by rw [opened, hstart, hjump.baseSeq, hbase]
  have hheld : Held (W.opened (wrap - 1)) (wrap - 1) [] := by
    rw [opened, hstart]
    exact (Held.of_clear hhas (by omega)).congr hjump
  have hlast : wrap - w.val ≤ wrap - 1 ∧ wrap - 1 < wrap := by
    have := w.ge
    omega
  rcases W.observe_cases (wrap - 1) with ⟨hold, -, -⟩ | ⟨hle, hmark, -, -⟩ | ⟨hle, -, hres, -⟩
  · rw [hzero] at hold
    exact absurd hold (Nat.not_lt_zero _)
  · obtain ⟨-, -, -, hlo, hhi, hroom⟩ := hheld.makeRoom hlast hle hlast.2
    cases (hroom.has_iff _ hlo hhi).mp hmark
  · rw [hres]
    exact (hheld.makeRoom hlast hle hlast.2).1

/-- Past `2 ^ 64 - 1` the base is zero again, and the largest number is accepted a second time. -/
theorem top_closed_repeats :
    (run sixtyFour [wrap - 2]).1.baseSeq = wrap - 1 ∧
      (run sixtyFour [wrap - 2, wrap - 1]).1.baseSeq = 0 ∧
      (run sixtyFour [wrap - 2, wrap - 1, wrap - 1]).2 = [wrap - 2, wrap - 1, wrap - 1] ∧
      ¬ (run sixtyFour [wrap - 2, wrap - 1, wrap - 1]).2.Nodup := by
  have hround : (run sixtyFour [wrap - 2, wrap - 1]).1.initialized = true ∧
      (run sixtyFour [wrap - 2, wrap - 1]).1.baseSeq = 0 ∧
      (run sixtyFour [wrap - 2, wrap - 1]).1.bits = (fresh sixtyFour).bits ∧
      (run sixtyFour [wrap - 2, wrap - 1]).2 = [wrap - 2, wrap - 1] := by decide +kernel
  obtain ⟨hinit, hbase, hbits, hacc⟩ := hround
  have htakes := takes_largest hinit hbase fun s => by rw [has_of_bits hbits, has_fresh]
  have htwice : (run sixtyFour [wrap - 2, wrap - 1, wrap - 1]).2 =
      [wrap - 2, wrap - 1, wrap - 1] := by
    rw [show [wrap - 2, wrap - 1, wrap - 1] = [wrap - 2, wrap - 1] ++ [wrap - 1] from rfl,
      run_concat, tally]
    dsimp only
    rw [if_pos htakes, hacc]
  refine ⟨by decide +kernel, hbase, htwice, ?_⟩
  rw [htwice]
  decide

end Window
end Dedupe
end PulseFanout
