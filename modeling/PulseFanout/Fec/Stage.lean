import Mathlib.Data.Finset.Card
import Mathlib.Data.Finset.Image
import Mathlib.Data.Finset.Range
import Mathlib.Data.List.Induction

/-!
# The stages of a generation

What the decoder is for, without bytes. A `Stage` is the set of frames at hand, the set of
parity rows at hand and whether recovery has run. A data shard adds a frame and offers it, a
parity shard adds a row, and when the rows are at least as many as the frames still lost all
of those are offered at once (`Stage.recover`).

`Along` is the invariant of a run over shards in any order and with repetitions: the rows are
the parity rows that came, a generation not yet recovered holds exactly the frames that came
and is short of rows, and the frames offered so far are the frames at hand. So a generation
of `n` frames is complete once `n` different shards have come (`Along.held_of_enough`), and
before that it has what came (`Along.held_of_few`).
-/

namespace PulseFanout
namespace Fec

/-! ### The machine -/

/-- A frame handed to the callback: which one, whether it was recovered, and the close
reason the decoder knows. -/
structure Offer where
  index : ℕ
  recovered : Bool
  reason : ℕ
deriving DecidableEq, Repr

/-- How far a generation has come. -/
structure Stage where
  /-- The frames at hand. -/
  held : Finset ℕ
  /-- The parity rows at hand. -/
  rows : Finset ℕ
  /-- Recovery has run. -/
  done : Bool
deriving DecidableEq

namespace Stage

/-- Nothing has come. -/
def empty : Stage := ⟨∅, ∅, false⟩

variable (n reason : ℕ)

/-- The frames still lost, in order. -/
def lost (S : Stage) : List ℕ := (List.range n).filter fun i => i ∉ S.held

/-- The rows suffice for the frames still lost. -/
def Ready (S : Stage) : Prop :=
  S.rows.Nonempty ∧ S.done = false ∧ S.lost n ≠ [] ∧ (S.lost n).length ≤ S.rows.card

instance (S : Stage) : Decidable (S.Ready n) := inferInstanceAs (Decidable (_ ∧ _))

/-- Offer everything that is lost, if the rows suffice. -/
def recover (S : Stage) : List Offer × Stage :=
  if S.Ready n then
    ((S.lost n).map fun i => ⟨i, true, reason⟩, ⟨Finset.range n, S.rows, true⟩)
  else ([], S)

/-- Shard `x` arrives: a data shard if `x < n`, else parity row `x - n`. -/
def arrive (S : Stage) (x : ℕ) : List Offer × Stage :=
  if x < n then
    let next := recover n reason { S with held := insert x S.held }
    (⟨x, false, if S.rows.Nonempty then reason else 0⟩ :: next.1, next.2)
  else recover n reason { S with rows := insert (x - n) S.rows }

end Stage

/-! ### Runs -/

namespace Stage

variable {n reason : ℕ}

/-- The shards `xs` arrive one after the other. -/
def run (n reason : ℕ) (xs : List ℕ) : List Offer × Stage :=
  xs.foldl (fun R x => (R.1 ++ (R.2.arrive n reason x).1, (R.2.arrive n reason x).2)) ([], empty)

theorem run_concat (xs : List ℕ) (x : ℕ) :
    run n reason (xs ++ [x]) =
      ((run n reason xs).1 ++ ((run n reason xs).2.arrive n reason x).1,
        ((run n reason xs).2.arrive n reason x).2) := by
  rw [run, List.foldl_append, List.foldl_cons, List.foldl_nil, run]

/-- The frames among the shards `xs`. -/
def dataOf (n : ℕ) (xs : List ℕ) : Finset ℕ := xs.toFinset.filter (· < n)

/-- The parity rows among the shards `xs`. -/
def rowsOf (n : ℕ) (xs : List ℕ) : Finset ℕ := (xs.toFinset.filter (n ≤ ·)).image (· - n)

theorem card_split (xs : List ℕ) :
    xs.toFinset.card = (dataOf n xs).card + (rowsOf n xs).card := by
  have hinj : Set.InjOn (fun x => x - n) (xs.toFinset.filter (n ≤ ·) : Finset ℕ) := by
    intro a ha b hb heq
    have ha' := (Finset.mem_filter.mp ha).2
    have hb' := (Finset.mem_filter.mp hb).2
    dsimp only at heq
    omega
  rw [rowsOf, Finset.card_image_of_injOn hinj, dataOf]
  have hnot : xs.toFinset.filter (n ≤ ·) = xs.toFinset.filter fun x => ¬ x < n := by
    congr 1
    funext x
    exact propext Nat.not_lt.symm
  rw [hnot, Finset.card_filter_add_card_filter_not]

theorem dataOf_concat_lt {xs : List ℕ} {x : ℕ} (hx : x < n) :
    dataOf n (xs ++ [x]) = insert x (dataOf n xs) := by
  ext i
  simp only [dataOf, Finset.mem_filter, List.mem_toFinset, List.mem_append, List.mem_singleton,
    Finset.mem_insert]
  constructor
  · rintro ⟨h | h, hi⟩
    · exact Or.inr ⟨h, hi⟩
    · exact Or.inl h
  · rintro (h | ⟨h, hi⟩)
    · exact ⟨Or.inr h, h ▸ hx⟩
    · exact ⟨Or.inl h, hi⟩

theorem dataOf_concat_ge {xs : List ℕ} {x : ℕ} (hx : ¬ x < n) :
    dataOf n (xs ++ [x]) = dataOf n xs := by
  ext i
  simp only [dataOf, Finset.mem_filter, List.mem_toFinset, List.mem_append, List.mem_singleton]
  constructor
  · rintro ⟨h | h, hi⟩
    · exact ⟨h, hi⟩
    · exact absurd (h ▸ hi) hx
  · rintro ⟨h, hi⟩
    exact ⟨Or.inl h, hi⟩

theorem rowsOf_concat_lt {xs : List ℕ} {x : ℕ} (hx : x < n) :
    rowsOf n (xs ++ [x]) = rowsOf n xs := by
  ext r
  simp only [rowsOf, Finset.mem_image, Finset.mem_filter, List.mem_toFinset, List.mem_append,
    List.mem_singleton]
  constructor
  · rintro ⟨y, ⟨h | h, hy⟩, hr⟩
    · exact ⟨y, ⟨h, hy⟩, hr⟩
    · omega
  · rintro ⟨y, ⟨h, hy⟩, hr⟩
    exact ⟨y, ⟨Or.inl h, hy⟩, hr⟩

theorem rowsOf_concat_ge {xs : List ℕ} {x : ℕ} (hx : ¬ x < n) :
    rowsOf n (xs ++ [x]) = insert (x - n) (rowsOf n xs) := by
  ext r
  simp only [rowsOf, Finset.mem_image, Finset.mem_filter, List.mem_toFinset, List.mem_append,
    List.mem_singleton, Finset.mem_insert]
  constructor
  · rintro ⟨y, ⟨h | h, hy⟩, hr⟩
    · exact Or.inr ⟨y, ⟨h, hy⟩, hr⟩
    · exact Or.inl (by rw [← hr, h])
  · rintro (h | ⟨y, ⟨h, hy⟩, hr⟩)
    · exact ⟨x, ⟨Or.inr rfl, by omega⟩, h.symm⟩
    · exact ⟨y, ⟨Or.inl h, hy⟩, hr⟩

theorem mem_lost {S : Stage} {i : ℕ} : i ∈ S.lost n ↔ i < n ∧ i ∉ S.held := by
  simp [lost]

theorem lost_length {S : Stage} (h : S.held ⊆ Finset.range n) :
    (S.lost n).length + S.held.card = n := by
  have hnodup : (S.lost n).Nodup := List.Nodup.filter _ List.nodup_range
  have hset : (S.lost n).toFinset = Finset.range n \ S.held := by
    ext i
    rw [List.mem_toFinset, mem_lost, Finset.mem_sdiff, Finset.mem_range]
  rw [← List.toFinset_card_of_nodup hnodup, hset, Finset.card_sdiff_add_card_eq_card h,
    Finset.card_range]

theorem held_eq_of_lost_nil {S : Stage} (h : S.held ⊆ Finset.range n) (hnil : S.lost n = []) :
    S.held = Finset.range n := by
  refine Finset.Subset.antisymm h fun i hi => ?_
  by_contra hnot
  have hmem : i ∈ S.lost n := mem_lost.mpr ⟨Finset.mem_range.mp hi, hnot⟩
  rw [hnil] at hmem
  cases hmem

theorem recover_held {S : Stage} (h : S.held ⊆ Finset.range n) :
    (S.recover n reason).2.held =
      S.held ∪ ((S.recover n reason).1.map Offer.index).toFinset := by
  rw [recover]
  split
  · ext i
    have hindex : ((S.lost n).map fun i => (⟨i, true, reason⟩ : Offer)).map Offer.index =
        S.lost n := by
      rw [List.map_map]
      exact List.map_id _
    rw [hindex, Finset.mem_union, List.mem_toFinset, mem_lost, Finset.mem_range]
    constructor
    · intro hi
      by_cases hmem : i ∈ S.held
      · exact .inl hmem
      · exact .inr ⟨hi, hmem⟩
    · rintro (hmem | ⟨hi, -⟩)
      · exact Finset.mem_range.mp (h hmem)
      · exact hi
  · simp

/-- The frames at hand grow by what is offered. -/
theorem arrive_held {S : Stage} (h : S.held ⊆ Finset.range n) (x : ℕ) :
    (S.arrive n reason x).2.held =
      S.held ∪ ((S.arrive n reason x).1.map Offer.index).toFinset := by
  rw [arrive]
  split
  · next hx =>
    have hsub : insert x S.held ⊆ Finset.range n :=
      Finset.insert_subset (Finset.mem_range.mpr hx) h
    dsimp only
    rw [recover_held hsub, List.map_cons, List.toFinset_cons, Finset.insert_union,
      Finset.union_insert]
  · exact recover_held h

/-- Without a parity row a data shard offers itself only. -/
theorem arrive_of_no_rows {S : Stage} (hrows : S.rows = ∅) {x : ℕ} (hx : x < n) :
    (S.arrive n reason x).2 = { S with held := insert x S.held } := by
  have hready : ¬ ({ S with held := insert x S.held } : Stage).Ready n := by
    rintro ⟨hnonempty, -⟩
    exact Finset.nonempty_iff_ne_empty.mp hnonempty hrows
  rw [arrive, if_pos hx, recover, if_neg hready]

/-- Where the stage machine is after the shards `xs`, having made `offers`. -/
structure Along (n : ℕ) (xs : List ℕ) (offers : List Offer) (S : Stage) : Prop where
  /-- Only frames of the generation are at hand. -/
  held_sub : S.held ⊆ Finset.range n
  /-- The rows are those that came. -/
  rows_eq : S.rows = rowsOf n xs
  /-- Without recovery the frames at hand are those that came. -/
  held_eq : S.done = false → S.held = dataOf n xs
  /-- Recovery has not run only because it could not. -/
  waiting : S.done = false → ¬ S.Ready n
  /-- Recovery leaves nothing missing, and needs as many shards as there are frames. -/
  complete : S.done = true → S.held = Finset.range n ∧ n ≤ xs.toFinset.card
  /-- What is at hand was offered. -/
  offered : ∀ i, (∃ o ∈ offers, o.index = i) ↔ i ∈ S.held
  /-- A frame is offered as recovered once. -/
  recovered_nodup : ((offers.filter Offer.recovered).map Offer.index).Nodup
  /-- And not before recovery has run. -/
  recovered_nil : S.done = false → offers.filter Offer.recovered = []

namespace Along

variable {xs : List ℕ} {offers : List Offer} {S : Stage}

theorem nil (n : ℕ) : Along n [] [] empty where
  held_sub := Finset.empty_subset _
  rows_eq := rfl
  held_eq := fun _ => rfl
  waiting := fun _ h => absurd h.1 Finset.not_nonempty_empty
  complete := fun h => by cases h
  offered := fun i => by simp [empty]
  recovered_nodup := List.nodup_nil
  recovered_nil := fun _ => rfl

/-- What is offered further is at hand further. -/
theorem offered_append {S' : Stage} {more : List Offer}
    (h : ∀ i, (∃ o ∈ offers, o.index = i) ↔ i ∈ S.held)
    (hheld : S'.held = S.held ∪ (more.map Offer.index).toFinset) (i : ℕ) :
    (∃ o ∈ offers ++ more, o.index = i) ↔ i ∈ S'.held := by
  rw [hheld, Finset.mem_union, ← h i, List.mem_toFinset, List.mem_map]
  constructor
  · rintro ⟨o, ho, hindex⟩
    rcases List.mem_append.mp ho with ho | ho
    · exact .inl ⟨o, ho, hindex⟩
    · exact .inr ⟨o, ho, hindex⟩
  · rintro (⟨o, ho, hindex⟩ | ⟨o, ho, hindex⟩)
    · exact ⟨o, List.mem_append_left _ ho, hindex⟩
    · exact ⟨o, List.mem_append_right _ ho, hindex⟩

/-- The recovery step after a shard was added. -/
theorem recover (hsub : S.held ⊆ Finset.range n) (hrows : S.rows = rowsOf n xs)
    (hheld : S.done = false → S.held = dataOf n xs)
    (hcomplete : S.done = true → S.held = Finset.range n ∧ n ≤ xs.toFinset.card)
    (hoffered : ∀ i, (∃ o ∈ offers, o.index = i) ↔ i ∈ S.held)
    (hnodup : ((offers.filter Offer.recovered).map Offer.index).Nodup)
    (hnil : S.done = false → offers.filter Offer.recovered = []) :
    Along n xs (offers ++ (S.recover n reason).1) (S.recover n reason).2 := by
  have hoffered' : ∀ i, (∃ o ∈ offers ++ (S.recover n reason).1, o.index = i) ↔
      i ∈ (S.recover n reason).2.held := offered_append hoffered (recover_held hsub)
  rw [Stage.recover] at hoffered' ⊢
  by_cases hready : S.Ready n
  · rw [if_pos hready] at hoffered' ⊢
    obtain ⟨-, hdone, -, henough⟩ := hready
    have hlen := lost_length hsub
    have hrec : (((S.lost n).map fun i => (⟨i, true, reason⟩ : Offer)).filter Offer.recovered) =
        (S.lost n).map fun i => (⟨i, true, reason⟩ : Offer) :=
      List.filter_eq_self.mpr fun o ho => by
        obtain ⟨i, -, rfl⟩ := List.mem_map.mp ho
        rfl
    refine ⟨Finset.Subset.refl _, hrows, fun h => Bool.noConfusion h, fun h => Bool.noConfusion h,
      fun _ => ⟨rfl, ?_⟩, hoffered', ?_, fun h => Bool.noConfusion h⟩
    · rw [card_split (n := n), ← hheld hdone, ← hrows]
      omega
    · rw [List.filter_append, hnil hdone, hrec, List.nil_append, List.map_map]
      have hid : (Offer.index ∘ fun i => (⟨i, true, reason⟩ : Offer)) = id := rfl
      rw [hid, List.map_id]
      exact List.Nodup.filter _ List.nodup_range
  · rw [if_neg hready, List.append_nil]
    exact ⟨hsub, hrows, hheld, fun _ => hready, hcomplete, hoffered, hnodup, hnil⟩

/-- **One more shard.** -/
theorem arrive (h : Along n xs offers S) (x : ℕ) :
    Along n (xs ++ [x]) (offers ++ (S.arrive n reason x).1) (S.arrive n reason x).2 := by
  have hmono : xs.toFinset.card ≤ (xs ++ [x]).toFinset.card := by
    refine Finset.card_le_card fun i hi => ?_
    rw [List.mem_toFinset] at hi ⊢
    exact List.mem_append_left _ hi
  rw [Stage.arrive]
  -- either way the shard is added first, and recovery tried after it
  by_cases hx : x < n
  · rw [if_pos hx]
    have hplain : ([⟨x, false, if S.rows.Nonempty then reason else 0⟩] : List Offer).filter
        Offer.recovered = [] := rfl
    dsimp only
    rw [List.append_cons offers]
    refine recover (S := { S with held := insert x S.held }) ?_ ?_ ?_ ?_ ?_ ?_ ?_
    · exact Finset.insert_subset (Finset.mem_range.mpr hx) h.held_sub
    · rw [rowsOf_concat_lt hx]
      exact h.rows_eq
    · intro hdone
      rw [dataOf_concat_lt hx, ← h.held_eq hdone]
    · intro hdone
      obtain ⟨hheld, hcard⟩ := h.complete hdone
      refine ⟨?_, hcard.trans hmono⟩
      dsimp only
      rw [hheld]
      exact Finset.insert_eq_of_mem (Finset.mem_range.mpr hx)
    · refine offered_append h.offered ?_
      rw [Finset.insert_eq, Finset.union_comm]
      rfl
    · rw [List.filter_append, hplain, List.append_nil]
      exact h.recovered_nodup
    · intro hdone
      rw [List.filter_append, hplain, List.append_nil]
      exact h.recovered_nil hdone
  · rw [if_neg hx]
    refine recover h.held_sub ?_ ?_ ?_ h.offered h.recovered_nodup h.recovered_nil
    · rw [rowsOf_concat_ge hx, ← h.rows_eq]
    · intro hdone
      rw [dataOf_concat_ge hx]
      exact h.held_eq hdone
    · intro hdone
      obtain ⟨hheld, hcard⟩ := h.complete hdone
      exact ⟨hheld, hcard.trans hmono⟩

/-- **Along a run.** -/
theorem run (n reason : ℕ) (xs : List ℕ) :
    Along n xs (Stage.run n reason xs).1 (Stage.run n reason xs).2 := by
  induction xs using List.reverseRecOn with
  | nil => exact nil n
  | append_singleton xs x ih =>
    rw [run_concat]
    exact ih.arrive x

/-- As many shards as frames: everything is at hand. -/
theorem held_of_enough (h : Along n xs offers S) (henough : n ≤ xs.toFinset.card) :
    S.held = Finset.range n := by
  cases hdone : S.done with
  | true => exact (h.complete hdone).1
  | false =>
    refine held_eq_of_lost_nil h.held_sub ?_
    by_contra hlost
    have hlen := lost_length h.held_sub
    have hsplit := card_split (n := n) xs
    rw [← h.held_eq hdone, ← h.rows_eq] at hsplit
    have hpos := List.length_pos_of_ne_nil hlost
    exact h.waiting hdone ⟨Finset.card_pos.mp (by omega), hdone, hlost, by omega⟩

/-- Fewer: only what came is at hand. -/
theorem held_of_few (h : Along n xs offers S) (hfew : xs.toFinset.card < n) :
    S.held = dataOf n xs := by
  cases hdone : S.done with
  | true => exact absurd (h.complete hdone).2 (Nat.not_le.mpr hfew)
  | false => exact h.held_eq hdone

end Along
end Stage
end Fec
end PulseFanout
