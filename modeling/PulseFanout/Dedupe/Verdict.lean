import PulseFanout.Dedupe.Window

/-!
# The verdict of the dedupe window

What the window is for, without a bitmap: a `Ledger` remembers the first number observed
and every number accepted, and admits a number that is not below the first, was not
accepted before, and lies less than a window's size below everything accepted.

`Tracks W L` relates the bitmap to the ledger and `Tracks.observe` is the simulation: while
the numbers stay a window's size clear of `2 ^ 64`, `observe` accepts exactly what the
ledger admits, and a rejection leaves the base and the bitmap as they were.

The invariant has two parts.

* `Marks` reads the bits: inside `[base, base + size)` a bit is set iff its number was
  accepted, and nothing accepted lies past the end (`Stands`); the end is below `2 ^ 64`.
  One round of either loop clears the base's bit and moves the base on, which keeps `Marks`
  (`Marks.pass`): the bit cleared now stands for `base + size`, which nobody has accepted.
* `Covers` adds what was left behind: every number between the first and the base was
  accepted, or is so far below an accepted number that it is past the cutoff.
-/

namespace PulseFanout
namespace Dedupe

variable {w : WindowSize}

/-! ### The ledger -/

/-- What the window has seen, without bound. -/
structure Ledger where
  /-- The first number ever observed. -/
  first : Option ℕ
  /-- The numbers accepted, in order. -/
  accepted : List ℕ
deriving DecidableEq, Repr

namespace Ledger

/-- Nothing observed yet. -/
def empty : Ledger := ⟨none, []⟩

/-- `seq` is new and not past the cutoff. -/
def Admits (w : WindowSize) (L : Ledger) (seq : ℕ) : Prop :=
  (∀ f ∈ L.first, f ≤ seq) ∧ seq ∉ L.accepted ∧ ∀ a ∈ L.accepted, a < seq + w.val

instance (w : WindowSize) (L : Ledger) (seq : ℕ) : Decidable (L.Admits w seq) :=
  inferInstanceAs (Decidable (_ ∧ _ ∧ _))

/-- The ledger after `seq` is observed. -/
def observe (w : WindowSize) (L : Ledger) (seq : ℕ) : Ledger :=
  ⟨some (L.first.getD seq), if L.Admits w seq then L.accepted ++ [seq] else L.accepted⟩

/-- The ledger after a sequence of observations. -/
def run (w : WindowSize) (seqs : List ℕ) : Ledger := seqs.foldl (observe w) empty

theorem observe_nodup {L : Ledger} (h : L.accepted.Nodup) (seq : ℕ) :
    (L.observe w seq).accepted.Nodup := by
  unfold observe
  split
  · next hadm =>
    refine List.nodup_append.mpr ⟨h, List.nodup_singleton seq, ?_⟩
    intro a ha b hb
    rw [List.mem_singleton.mp hb]
    rintro rfl
    exact hadm.2.1 ha
  · exact h

theorem run_first (seqs : List ℕ) : (run w seqs).first = seqs.head? := by
  suffices h : ∀ (L : Ledger), (seqs.foldl (observe w) L).first = L.first.or seqs.head? from h empty
  induction seqs with
  | nil => intro L; simp
  | cons seq seqs ih =>
    intro L
    rw [List.foldl_cons, ih]
    cases hf : L.first <;> simp [observe, hf]

theorem run_concat (seqs : List ℕ) (seq : ℕ) :
    run w (seqs ++ [seq]) = (run w seqs).observe w seq := by
  rw [run, List.foldl_append, List.foldl_cons, List.foldl_nil, run]

theorem run_nodup (seqs : List ℕ) : (run w seqs).accepted.Nodup := by
  induction seqs using List.reverseRecOn with
  | nil => exact List.nodup_nil
  | append_singleton seqs seq ih =>
    rw [run_concat]
    exact observe_nodup ih seq

/-- Numbers that lie within one window of each other are all accepted, but for those below
the first. -/
theorem mem_run_accepted {seqs : List ℕ} (hclose : ∀ s ∈ seqs, ∀ t ∈ seqs, t < s + w.val) :
    ∀ s, s ∈ (run w seqs).accepted ↔ s ∈ seqs ∧ ∀ f ∈ seqs.head?, f ≤ s := by
  induction seqs using List.reverseRecOn with
  | nil => exact fun s => ⟨fun h => (nomatch h), fun h => (nomatch h.1)⟩
  | append_singleton seqs seq ih =>
    have hsub : ∀ t ∈ seqs, t ∈ seqs ++ [seq] := fun t => List.mem_append_left _
    have hlast : seq ∈ seqs ++ [seq] := List.mem_append_right _ (List.mem_singleton_self seq)
    have ih := ih fun a ha b hb => hclose a (hsub a ha) b (hsub b hb)
    -- the cutoff never bites: `seq` is admitted unless accepted already or below the first
    have hadm : (run w seqs).Admits w seq ↔ (∀ f ∈ seqs.head?, f ≤ seq) ∧ seq ∉ seqs := by
      rw [Admits, run_first]
      constructor
      · rintro ⟨hfirst, hnew, -⟩
        exact ⟨hfirst, fun hmem => hnew ((ih seq).mpr ⟨hmem, hfirst⟩)⟩
      · rintro ⟨hfirst, hnew⟩
        refine ⟨hfirst, fun hmem => hnew ((ih seq).mp hmem).1, fun a ha => ?_⟩
        exact hclose seq hlast a (hsub a ((ih a).mp ha).1)
    have hhead : ∀ s, (∀ f ∈ (seqs ++ [seq]).head?, f ≤ s) ↔
        (∀ f ∈ seqs.head?, f ≤ s) ∧ (seqs = [] → seq ≤ s) := by
      intro s
      cases seqs <;> simp
    intro s
    rw [run_concat, observe, hhead]
    dsimp only
    by_cases h : (run w seqs).Admits w seq
    · obtain ⟨hfirst, hnew⟩ := hadm.mp h
      rw [if_pos h, List.mem_append, List.mem_singleton, List.mem_append, List.mem_singleton, ih]
      constructor
      · rintro (⟨hs, hf⟩ | rfl)
        · exact ⟨Or.inl hs, hf, fun hnil => absurd hs (hnil ▸ List.not_mem_nil)⟩
        · exact ⟨Or.inr rfl, hfirst, fun _ => le_rfl⟩
      · rintro ⟨hs | rfl, hf, -⟩
        · exact Or.inl ⟨hs, hf⟩
        · exact Or.inr rfl
    · rw [if_neg h, List.mem_append, List.mem_singleton, ih]
      rw [hadm, not_and, not_not] at h
      constructor
      · rintro ⟨hs, hf⟩
        exact ⟨Or.inl hs, hf, fun hnil => absurd hs (hnil ▸ List.not_mem_nil)⟩
      · rintro ⟨hs | rfl, hf, -⟩
        · exact ⟨hs, hf⟩
        · exact ⟨h hf, hf⟩

end Ledger

/-! ### Bits and numbers -/

theorem mod_ne_of_lt {base s : ℕ} (hlt : base < s) (hend : s < base + w.val) :
    s % w.val ≠ base % w.val := by
  intro h
  have hzero : (s - base) % w.val = 0 := Nat.sub_mod_eq_zero_of_mod_eq h
  rw [Nat.mod_eq_of_lt (by omega)] at hzero
  omega

/-- The bits of the window stand for the accepted numbers, wherever the window lies. -/
structure Stands (W : Window w) (accepted : List ℕ) : Prop where
  /-- Nothing accepted lies past the end of the window. -/
  below : ∀ a ∈ accepted, a < W.baseSeq + w.val
  /-- Inside the window the bits are exact. -/
  has_iff : ∀ s, W.baseSeq ≤ s → s < W.baseSeq + w.val → (W.has s = true ↔ s ∈ accepted)

namespace Stands

variable {W V : Window w} {accepted : List ℕ}

theorem congr (h : Stands W accepted) (hsame : Window.Agree V W) : Stands V accepted := by
  refine ⟨?_, fun s => ?_⟩
  · rw [hsame.baseSeq]; exact h.below
  · rw [hsame.baseSeq, hsame.has]
    exact h.has_iff s

/-- One round of `slide_to` or `advance_contiguous`, short of `2 ^ 64`. -/
theorem pass (h : Stands W accepted) (hroom : W.baseSeq + 1 < wrap)
    (hbase : V.baseSeq = (W.baseSeq + 1) % wrap)
    (hhas : ∀ s, V.has s = (!decide (s % w.val = W.baseSeq % w.val) && W.has s)) :
    V.baseSeq = W.baseSeq + 1 ∧ Stands V accepted := by
  have hbase' : V.baseSeq = W.baseSeq + 1 := by rw [hbase, Nat.mod_eq_of_lt hroom]
  refine ⟨hbase', ?_, ?_⟩
  · intro a ha
    have := h.below a ha
    omega
  · intro s hlo hhi
    rw [hhas]
    by_cases hs : s = W.baseSeq + w.val
    · -- the bit just cleared now stands for a number past everything accepted
      have hnot : s ∉ accepted := fun hmem => by have := h.below s hmem; omega
      simp [hs ▸ hnot, hs]
    · have hne : s % w.val ≠ W.baseSeq % w.val := mod_ne_of_lt (by omega) (by omega)
      simp [hne, h.has_iff s (by omega) (by omega)]

theorem slide (h : Stands W accepted) (k : ℕ) (hroom : W.baseSeq + k < wrap) :
    (Window.slideStep^[k] W).baseSeq = W.baseSeq + k ∧
      (Window.slideStep^[k] W).initialized = W.initialized ∧
      Stands (Window.slideStep^[k] W) accepted := by
  induction k with
  | zero => exact ⟨rfl, rfl, h⟩
  | succ k ih =>
    obtain ⟨hbase, hinit, hstands⟩ := ih (by omega)
    rw [Function.iterate_succ_apply']
    obtain ⟨hbase', hstands'⟩ := hstands.pass (by omega) (Window.slideStep_baseSeq _)
      (Window.has_slideStep _)
    exact ⟨by omega, by rw [Window.slideStep_initialized, hinit], hstands'⟩

theorem set (h : Stands W accepted) {seq : ℕ} (hlo : W.baseSeq ≤ seq)
    (hhi : seq < W.baseSeq + w.val) : Stands (W.set seq) (accepted ++ [seq]) := by
  refine ⟨?_, ?_⟩
  · intro a ha
    rcases List.mem_append.mp ha with ha | ha
    · exact h.below a ha
    · rw [List.mem_singleton.mp ha]; exact hhi
  · intro s hslo hshi
    rw [Window.set_baseSeq] at hslo hshi
    have hsame : s % w.val = seq % w.val ↔ s = seq := by
      refine ⟨fun hmod => ?_, fun heq => by rw [heq]⟩
      by_contra hne
      rcases Nat.lt_or_gt_of_ne hne with hlt | hgt
      · exact mod_ne_of_lt hlt (by omega) hmod.symm
      · exact mod_ne_of_lt hgt (by omega) hmod
    rw [Window.has_set, Bool.or_eq_true, decide_eq_true_eq, hsame, h.has_iff s hslo hshi,
      List.mem_append, List.mem_singleton]
    exact Or.comm

end Stands

/-- The bits of the window stand for the accepted numbers. -/
structure Marks (W : Window w) (accepted : List ℕ) : Prop extends Stands W accepted where
  /-- The window ends before `2 ^ 64`. -/
  room : W.baseSeq + w.val ≤ wrap

namespace Marks

variable {W V : Window w} {accepted : List ℕ}

/-- One round of `slide_to` or `advance_contiguous`. -/
theorem pass (h : Marks W accepted) (hroom : W.baseSeq + w.val < wrap)
    (hbase : V.baseSeq = (W.baseSeq + 1) % wrap)
    (hhas : ∀ s, V.has s = (!decide (s % w.val = W.baseSeq % w.val) && W.has s)) :
    V.baseSeq = W.baseSeq + 1 ∧ Marks V accepted := by
  have hge := w.ge
  obtain ⟨hbase', hstands⟩ := h.toStands.pass (by omega) hbase hhas
  exact ⟨hbase', hstands, by omega⟩

theorem slide (h : Marks W accepted) (k : ℕ) (hroom : W.baseSeq + k + w.val ≤ wrap) :
    (Window.slideStep^[k] W).baseSeq = W.baseSeq + k ∧
      (Window.slideStep^[k] W).initialized = W.initialized ∧
      Marks (Window.slideStep^[k] W) accepted := by
  have hge := w.ge
  obtain ⟨hbase, hinit, hstands⟩ := h.toStands.slide k (by omega)
  exact ⟨hbase, hinit, hstands, by omega⟩

theorem set (h : Marks W accepted) {seq : ℕ} (hlo : W.baseSeq ≤ seq)
    (hhi : seq < W.baseSeq + w.val) : Marks (W.set seq) (accepted ++ [seq]) :=
  ⟨h.toStands.set hlo hhi, h.room⟩

end Marks

/-- The window stands for the numbers accepted since `first` was observed. -/
structure Covers (W : Window w) (first : ℕ) (accepted : List ℕ) : Prop extends
    Marks W accepted where
  /-- The base never lies below the first number. -/
  first_le : first ≤ W.baseSeq
  /-- What the base has passed was accepted or is past the cutoff. -/
  past : ∀ s, first ≤ s → s < W.baseSeq → s ∈ accepted ∨ ∃ a ∈ accepted, s + w.val ≤ a
  /-- Accepted numbers are a window's size clear of `2 ^ 64`. -/
  clear : ∀ a ∈ accepted, a + w.val < wrap

namespace Covers

variable {W V : Window w} {first : ℕ} {accepted : List ℕ}

theorem congr (h : Covers W first accepted) (hsame : Window.Agree V W) :
    Covers V first accepted := by
  refine ⟨⟨h.toStands.congr hsame, ?_⟩, ?_, ?_, h.clear⟩
  · rw [hsame.baseSeq]; exact h.room
  · rw [hsame.baseSeq]; exact h.first_le
  · rw [hsame.baseSeq]; exact h.past

theorem advanceLoop (fuel : ℕ) (W : Window w) (h : Covers W first accepted) :
    Covers (Window.advanceLoop fuel W) first accepted ∧
      (Window.advanceLoop fuel W).initialized = W.initialized := by
  induction fuel generalizing W with
  | zero => exact ⟨h, rfl⟩
  | succ fuel ih =>
    rw [Window.advanceLoop, Window.test_eq]
    split
    · next hhas =>
      have hge := w.ge
      have hbase : W.baseSeq ∈ accepted := (h.has_iff _ le_rfl (by omega)).mp hhas
      obtain ⟨hnext, hmarks⟩ := h.toMarks.pass (h.clear _ hbase) (Window.advanceStep_baseSeq W)
        (Window.has_advanceStep W)
      refine ih W.advanceStep ⟨hmarks, ?_, ?_, h.clear⟩
      · have := h.first_le
        omega
      · intro s hfirst hs
        by_cases heq : s = W.baseSeq
        · exact Or.inl (heq ▸ hbase)
        · exact h.past s hfirst (by omega)
    · exact ⟨h, rfl⟩

end Covers

/-! ### The steps of `observe` -/

/-- What sliding leaves: `seq` lies inside the window, and everything that fell out of it is
past the cutoff `seq` sets. -/
structure Roomy (W V : Window w) (first : ℕ) (accepted : List ℕ) (seq : ℕ) : Prop extends
    Marks V accepted where
  /-- The base does not move back. -/
  base_le : W.baseSeq ≤ V.baseSeq
  /-- The number is not below the base. -/
  le_seq : V.baseSeq ≤ seq
  /-- The number is below the end. -/
  seq_lt : seq < V.baseSeq + w.val
  /-- A window that slid has never seen the number. -/
  still : V.has seq = true → V.bits = W.bits ∧ V.baseSeq = W.baseSeq
  /-- What the base has passed. -/
  past : ∀ s, first ≤ s → s < V.baseSeq →
    s ∈ accepted ∨ ∃ a ∈ accepted ++ [seq], s + w.val ≤ a
  /-- Sliding changes nothing else of the state. -/
  init : V.initialized = W.initialized

theorem Covers.makeRoom {W : Window w} {first : ℕ} {accepted : List ℕ} {seq : ℕ}
    (h : Covers W first accepted) (hseq : W.baseSeq ≤ seq) (hclear : seq + w.val < wrap) :
    (W.makeRoom seq).1.accepts = true ∧ Roomy W (W.makeRoom seq).2 first accepted seq := by
  have hge := w.ge
  have hlt := w.lt
  have hroom := h.room
  have hend : (W.baseSeq + w.val) % wrap = W.baseSeq + w.val := Nat.mod_eq_of_lt (by omega)
  unfold Window.makeRoom
  rw [hend]
  split
  · next hpast =>
    -- the target is `seq - size + 1`: nothing wraps
    have htarget : (seq + wrap - w.val + 1) % wrap = seq - w.val + 1 := by
      rw [show seq + wrap - w.val + 1 = seq - w.val + 1 + wrap by omega, Nat.add_mod_right,
        Nat.mod_eq_of_lt (by omega)]
    obtain ⟨hbase, hinit, hmarks⟩ :=
      h.toMarks.slide (seq - w.val + 1 - W.baseSeq) (by omega)
    have hnot : seq ∉ accepted := fun hmem => by have := h.below seq hmem; omega
    rw [htarget]
    refine ⟨rfl, ⟨⟨⟨hmarks.below, hmarks.has_iff⟩, hmarks.room⟩, ?_, ?_, ?_, ?_, ?_, hinit⟩⟩
    · change W.baseSeq ≤ (Window.slideStep^[_] W).baseSeq
      omega
    · change (Window.slideStep^[_] W).baseSeq ≤ seq
      omega
    · change seq < (Window.slideStep^[_] W).baseSeq + w.val
      omega
    · intro hhas
      exact absurd ((hmarks.has_iff seq (by omega) (by omega)).mp hhas) hnot
    · intro s _ hs
      change s < (Window.slideStep^[_] W).baseSeq at hs
      exact Or.inr ⟨seq, List.mem_append_right _ (List.mem_singleton_self seq), by omega⟩
  · next hin =>
    refine ⟨rfl, ⟨h.toMarks, le_rfl, hseq, Nat.lt_of_not_le hin, fun _ => ⟨rfl, rfl⟩, ?_, rfl⟩⟩
    intro s hfirst hs
    rcases h.past s hfirst hs with hmem | ⟨a, ha, hle⟩
    · exact Or.inl hmem
    · exact Or.inr ⟨a, List.mem_append_left _ ha, hle⟩

/-- The rest of `observe` once the number lies in the window and its bit is clear. -/
theorem Roomy.record {W V : Window w} {first : ℕ} {accepted : List ℕ} {seq : ℕ}
    (h : Covers W first accepted) (hr : Roomy W V first accepted seq)
    (hclear : seq + w.val < wrap) : Covers (V.set seq) first (accepted ++ [seq]) := by
  refine ⟨hr.toMarks.set hr.le_seq hr.seq_lt, ?_, ?_, ?_⟩
  · exact h.first_le.trans hr.base_le
  · intro s hfirst hs
    rcases hr.past s hfirst hs with hmem | hcut
    · exact Or.inl (List.mem_append_left _ hmem)
    · exact Or.inr hcut
  · intro a ha
    rcases List.mem_append.mp ha with ha | ha
    · exact h.clear a ha
    · rw [List.mem_singleton.mp ha]; exact hclear

/-! ### The simulation -/

/-- The window stands for the ledger. -/
structure Tracks (W : Window w) (L : Ledger) : Prop where
  /-- Before the first observation the bitmap is empty. -/
  idle : L.first = none → W.initialized = false ∧ (∀ s, W.has s = false) ∧ L.accepted = []
  /-- Afterwards it stands for what was accepted. -/
  live : ∀ f, L.first = some f → W.initialized = true ∧ Covers W f L.accepted

namespace Tracks

variable {W : Window w} {L : Ledger}

theorem fresh (w : WindowSize) : Tracks (Window.fresh w) Ledger.empty :=
  ⟨fun _ => ⟨rfl, Window.has_fresh w, rfl⟩, fun _ h => (nomatch h)⟩

/-- The first number observed becomes the base; later ones change nothing here. -/
theorem opened (h : Tracks W L) {seq : ℕ} (hclear : seq + w.val < wrap) :
    (W.opened seq).initialized = true ∧ Covers (W.opened seq) (L.first.getD seq) L.accepted := by
  have hjump := Window.noteJump_agree (W.start seq) seq
  suffices hstart : (W.start seq).initialized = true ∧
      Covers (W.start seq) (L.first.getD seq) L.accepted from
    ⟨hjump.initialized.trans hstart.1, hstart.2.congr hjump⟩
  cases hfirst : L.first with
  | none =>
    obtain ⟨hinit, hhas, hacc⟩ := h.idle hfirst
    rw [Window.start, hinit, hacc]
    refine ⟨rfl, ⟨⟨⟨?_, ?_⟩, ?_⟩, le_rfl, ?_, ?_⟩⟩
    · intro a ha; cases ha
    · intro s _ _
      exact ⟨fun hs => absurd hs (by rw [Bool.not_eq_true]; exact hhas s), fun hs => nomatch hs⟩
    · exact hclear.le
    · intro s hlo hhi
      exact absurd hhi (Nat.not_lt.mpr hlo)
    · intro a ha; cases ha
  | some f =>
    obtain ⟨hinit, hcov⟩ := h.live f hfirst
    rw [Window.start, hinit, if_pos rfl]
    exact ⟨hinit, hcov⟩

/-- A window that has not been started admits every number, so one that rejects is opened as
it is. -/
theorem opened_of_reject (h : Tracks W L) {seq : ℕ} (hrej : ¬ L.Admits w seq) :
    Window.Agree (W.opened seq) W := by
  have hjump := Window.noteJump_agree (W.start seq) seq
  cases hfirst : L.first with
  | none =>
    obtain ⟨-, -, hacc⟩ := h.idle hfirst
    exact absurd (by simp [Ledger.Admits, hfirst, hacc]) hrej
  | some f =>
    have hstart : W.start seq = W := by rw [Window.start, (h.live f hfirst).1, if_pos rfl]
    rw [hstart] at hjump
    rw [Window.opened, hstart]
    exact hjump

theorem reject (h : Tracks W L) {seq : ℕ} {V : Window w} (hclear : seq + w.val < wrap)
    (hrej : ¬ L.Admits w seq) (hsame : Window.Agree V (W.opened seq)) :
    (V.baseSeq = W.baseSeq ∧ V.bits = W.bits) ∧ Tracks V (L.observe w seq) := by
  obtain ⟨hinit, hcov⟩ := h.opened hclear
  have hopened := h.opened_of_reject hrej
  refine ⟨⟨hsame.baseSeq.trans hopened.baseSeq, hsame.bits.trans hopened.bits⟩, ?_, ?_⟩
  · intro hnone; cases hnone
  · intro f hf
    rw [← Option.some.inj hf, Ledger.observe, if_neg hrej]
    exact ⟨hsame.initialized.trans hinit, hcov.congr hsame⟩

/-- **One observation.** `observe` accepts what the ledger admits, and a rejection leaves the
base and the bitmap alone. -/
theorem observe (h : Tracks W L) {seq : ℕ} (hclear : seq + w.val < wrap) :
    ((W.observe seq).1.accepts = true ↔ L.Admits w seq) ∧
      ((W.observe seq).1.accepts = false →
        (W.observe seq).2.baseSeq = W.baseSeq ∧ (W.observe seq).2.bits = W.bits) ∧
      Tracks (W.observe seq).2 (L.observe w seq) := by
  obtain ⟨hinit, hcov⟩ := h.opened hclear
  have hlow : (∀ f ∈ L.first, f ≤ seq) ↔ L.first.getD seq ≤ seq := by
    cases L.first <;> simp
  rcases W.observe_cases seq with ⟨hold, hres, hsame⟩ | ⟨hbase, hhas, hres, hsame⟩ |
    ⟨hbase, hhas, hres, V, hsame, hstate⟩
  · -- below the base: accepted already, past the cutoff, or below the first
    have hrej : ¬ L.Admits w seq := by
      rintro ⟨hfirst, hnew, hcut⟩
      rcases hcov.past seq (hlow.mp hfirst) hold with hmem | ⟨a, ha, hle⟩
      · exact hnew hmem
      · exact absurd (hcut a ha) (by omega)
    obtain ⟨hkept, htracks⟩ := h.reject hclear hrej hsame
    rw [hres]
    exact ⟨⟨fun hacc => (nomatch hacc), fun hadm => absurd hadm hrej⟩, fun _ => hkept, htracks⟩
  · -- its bit is set: accepted already, and the window did not slide
    obtain ⟨-, hroom⟩ := hcov.makeRoom hbase hclear
    have hrej : ¬ L.Admits w seq := fun hadm =>
      hadm.2.1 ((hroom.has_iff seq hroom.le_seq hroom.seq_lt).mp hhas)
    obtain ⟨hbits, hseq⟩ := hroom.still hhas
    obtain ⟨hkept, htracks⟩ := h.reject hclear hrej
      ⟨hsame.bits.trans hbits, hsame.baseSeq.trans hseq, hsame.initialized.trans hroom.init⟩
    rw [hres]
    exact ⟨⟨fun hacc => (nomatch hacc), fun hadm => absurd hadm hrej⟩, fun _ => hkept, htracks⟩
  -- a new number, with room in the window
  · obtain ⟨hacc, hroom⟩ := hcov.makeRoom hbase hclear
    have hadm : L.Admits w seq := by
      refine ⟨hlow.mpr (hcov.first_le.trans hbase), fun hmem => ?_, fun a ha => ?_⟩
      · rw [(hroom.has_iff seq hroom.le_seq hroom.seq_lt).mpr hmem] at hhas
        cases hhas
      · have := hcov.below a ha
        omega
    obtain ⟨hcovV, hinitV⟩ :=
      Covers.advanceLoop w.val V ((hroom.record hcov hclear).congr hsame)
    rw [hres, hacc, hstate]
    refine ⟨⟨fun _ => hadm, fun _ => rfl⟩, fun hc => (nomatch hc), ?_, ?_⟩
    · intro hnone; cases hnone
    · intro f hf
      rw [← Option.some.inj hf, Ledger.observe, if_pos hadm]
      exact ⟨hinitV.trans (hsame.initialized.trans (hroom.init.trans hinit)), hcovV⟩

end Tracks

/-! ### Whole runs -/

namespace Window

/-- Observe one number, keeping the list of those accepted. -/
def tally (T : Window w × List ℕ) (seq : ℕ) : Window w × List ℕ :=
  ((T.1.observe seq).2, if (T.1.observe seq).1.accepts then T.2 ++ [seq] else T.2)

/-- A fresh window after a sequence of observations, with the numbers it accepted. -/
def run (w : WindowSize) (seqs : List ℕ) : Window w × List ℕ :=
  seqs.foldl tally (fresh w, [])

theorem run_concat (seqs : List ℕ) (seq : ℕ) :
    run w (seqs ++ [seq]) = tally (run w seqs) seq := by
  rw [run, List.foldl_append, List.foldl_cons, List.foldl_nil, run]

/-- **Along a run** the window stands for the ledger. -/
theorem run_tracks (seqs : List ℕ) (h : ∀ s ∈ seqs, s + w.val < wrap) :
    Tracks (run w seqs).1 (Ledger.run w seqs) ∧
      (run w seqs).2 = (Ledger.run w seqs).accepted := by
  induction seqs using List.reverseRecOn with
  | nil => exact ⟨Tracks.fresh w, rfl⟩
  | append_singleton seqs seq ih =>
    obtain ⟨htracks, hacc⟩ := ih fun s hs => h s (List.mem_append_left _ hs)
    obtain ⟨hiff, -, hnext⟩ :=
      htracks.observe (h seq (List.mem_append_right _ (List.mem_singleton_self seq)))
    rw [run_concat, Ledger.run_concat]
    refine ⟨hnext, ?_⟩
    rw [tally, Ledger.observe, hacc]
    simp only [hiff]

/-- **The exact verdict.** On a fresh window, after any observations of numbers a window's
size clear of `2 ^ 64`, a number is accepted iff it is not below the first one observed, was
not accepted before, and is less than the window's size below everything accepted. Any other
verdict is `duplicate` or `tooOld` and leaves the base and the bitmap unchanged. The numbers
accepted are those an unbounded ledger with that cutoff accepts. -/
theorem observe_exact_verdict (w : WindowSize) (seqs : List ℕ) (seq : ℕ)
    (hsmall : ∀ s ∈ seqs ++ [seq], s < wrap - w.val) :
    ((((run w seqs).1.observe seq).1 = .accept ∨ ((run w seqs).1.observe seq).1 = .advanced) ↔
      (seqs ++ [seq]).head (by simp) ≤ seq ∧ seq ∉ (run w seqs).2 ∧
        ∀ a ∈ (run w seqs).2, a < seq + w.val) ∧
    (¬ (((run w seqs).1.observe seq).1 = .accept ∨
        ((run w seqs).1.observe seq).1 = .advanced) →
      (((run w seqs).1.observe seq).1 = .duplicate ∨
        ((run w seqs).1.observe seq).1 = .tooOld) ∧
      ((run w seqs).1.observe seq).2.baseSeq = (run w seqs).1.baseSeq ∧
      ((run w seqs).1.observe seq).2.bits = (run w seqs).1.bits) ∧
    (run w (seqs ++ [seq])).2 = (Ledger.run w (seqs ++ [seq])).accepted := by
  have hclear : ∀ s ∈ seqs ++ [seq], s + w.val < wrap := fun s hs => by
    have := hsmall s hs
    omega
  obtain ⟨htracks, hacc⟩ := run_tracks seqs fun s hs => hclear s (List.mem_append_left _ hs)
  obtain ⟨hiff, hkeep, -⟩ :=
    htracks.observe (hclear seq (List.mem_append_right _ (List.mem_singleton_self seq)))
  have hverdict : ∀ r : ObserveResult, (r = .accept ∨ r = .advanced ↔ r.accepts = true) ∧
      (r.accepts = false → r = .duplicate ∨ r = .tooOld) := by
    intro r; cases r <;> decide
  -- the first number of the ledger is the first one observed
  have hfirst : (∀ f ∈ (Ledger.run w seqs).first, f ≤ seq) ↔
      (seqs ++ [seq]).head (by simp) ≤ seq := by
    rw [Ledger.run_first]
    cases seqs <;> simp
  refine ⟨?_, ?_, (run_tracks _ hclear).2⟩
  · rw [(hverdict _).1, hiff, Ledger.Admits, hfirst, hacc]
  · intro hrej
    rw [(hverdict _).1, Bool.not_eq_true] at hrej
    exact ⟨(hverdict _).2 hrej, hkeep hrej⟩

/-- The smallest window. -/
def sixtyFour : WindowSize := ⟨64, ⟨6, rfl⟩, le_rfl, by decide⟩

/-- After 10, 11 and 80 the window of 64 has given up on 12. -/
theorem late_number_rejected :
    ((run sixtyFour [10, 11, 80]).1.observe 12).1 = .tooOld ∧
      ((run sixtyFour [10, 11, 80]).1.observe 12).2.baseSeq = 17 := by
  have hold : ((run sixtyFour [10, 11, 80]).1.observe 12).1 = .tooOld := by decide +kernel
  have hbase : (run sixtyFour [10, 11, 80]).1.baseSeq = 17 := by decide +kernel
  obtain ⟨-, hkeep, -⟩ := observe_exact_verdict sixtyFour [10, 11, 80] 12 (by decide)
  have hrej := hkeep (by rw [hold]; decide)
  exact ⟨hold, hrej.2.1.trans hbase⟩

end Window
end Dedupe
end PulseFanout
