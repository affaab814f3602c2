import Mathlib.Data.Finset.Dedup
import Mathlib.Data.List.Basic
import Mathlib.Order.Bounds.Basic
import Mathlib.Order.Interval.Finset.Nat

/-!
# The numbers of an interval that a list leaves out

What a consumer of numbered items has passed over: the numbers from where it began up to where it
stands that it did not take. Such a count is usually kept by increments, and the rules below say
what the increments are: nothing when the next number was taken (`card_missing_succ`), nothing when
a number is taken that is still ahead (`missing_concat`), and the length of the jump when the place
moves on over numbers none of which was taken (`card_missing_jump`).

Where only the ends of the range and the number of items are kept, and no item came twice, the count
is their difference (`card_lost`).
-/

namespace Framework

/-- The numbers from `a` up to `b` that are not in the list. -/
def missing (a b : ℕ) (taken : List ℕ) : Finset ℕ := (Finset.Ico a b).filter (· ∉ taken)

theorem missing_self (a : ℕ) (taken : List ℕ) : missing a a taken = ∅ := by
  rw [missing, Finset.Ico_self]
  rfl

/-- The place moves on by one. -/
theorem card_missing_succ {a b : ℕ} (h : a ≤ b) (taken : List ℕ) :
    (missing a (b + 1) taken).card =
      (missing a b taken).card + if b ∈ taken then 0 else 1 := by
  have hnew : b ∉ missing a b taken := fun hmem =>
    absurd (Finset.mem_Ico.mp (Finset.mem_filter.mp hmem).1).2 (lt_irrefl b)
  rw [missing, Nat.Ico_succ_right_eq_insert_Ico h, Finset.filter_insert]
  by_cases hmem : b ∈ taken
  · rw [if_neg (not_not.mpr hmem), if_pos hmem]
    rfl
  · rw [if_pos hmem, if_neg hmem]
    exact Finset.card_insert_of_notMem hnew

/-- A number is taken that the place has not reached. -/
theorem missing_concat {a b x : ℕ} (h : b ≤ x) (taken : List ℕ) :
    missing a b (taken ++ [x]) = missing a b taken := by
  refine Finset.filter_congr fun s hs => ?_
  have hne : s ≠ x := fun heq => by
    have := (Finset.mem_Ico.mp hs).2
    omega
  rw [List.mem_append, List.mem_singleton]
  simp only [hne, or_false]

/-- The place jumps over numbers that were not taken. -/
theorem card_missing_jump {a b c : ℕ} {taken : List ℕ} (hab : a ≤ b) (hbc : b ≤ c)
    (hbelow : ∀ x ∈ taken, x < b) :
    (missing a c taken).card = (missing a b taken).card + (c - b) := by
  obtain ⟨d, rfl⟩ := Nat.exists_eq_add_of_le hbc
  induction d with
  | zero => rw [Nat.add_zero, Nat.sub_self, Nat.add_zero]
  | succ d ih =>
    have hnot : b + d ∉ taken := fun hmem => by
      have := hbelow _ hmem
      omega
    rw [← Nat.add_assoc, card_missing_succ (by omega), ih (by omega), if_neg hnot]
    omega

/-! ### A list on its own -/

/-- How many numbers there are from the smallest to the largest of a list. -/
def span (l : List ℕ) : ℕ :=
  match l.min?, l.max? with
  | some a, some b => b + 1 - a
  | _, _ => 0

/-- The numbers between the smallest and the largest of a list that are not in it. -/
def lost (l : List ℕ) : Finset ℕ :=
  match l.min?, l.max? with
  | some a, some b => missing a (b + 1) l
  | _, _ => ∅

theorem min?_eq_of_isLeast {l : List ℕ} {a : ℕ} (h : IsLeast {n | n ∈ l} a) : l.min? = some a :=
  List.min?_eq_some_iff.mpr ⟨h.1, fun _ hb => h.2 hb⟩

theorem max?_eq_of_isGreatest {l : List ℕ} {b : ℕ} (h : IsGreatest {n | n ∈ l} b) :
    l.max? = some b :=
  List.max?_eq_some_iff.mpr ⟨h.1, fun _ ha => h.2 ha⟩

theorem span_eq {l : List ℕ} {a b : ℕ} (ha : IsLeast {n | n ∈ l} a)
    (hb : IsGreatest {n | n ∈ l} b) : span l = b + 1 - a := by
  rw [span, min?_eq_of_isLeast ha, max?_eq_of_isGreatest hb]

/-- With no number twice, what is in the list and what is lost make up the range. -/
theorem card_lost {l : List ℕ} (hnodup : l.Nodup) : (lost l).card + l.length = span l := by
  cases ha : l.min? with
  | none =>
    rw [List.min?_eq_none_iff] at ha
    rw [ha]
    rfl
  | some a =>
    cases hb : l.max? with
    | none =>
      rw [List.max?_eq_none_iff] at hb
      rw [hb]
      rfl
    | some b =>
      obtain ⟨-, hleast⟩ := List.min?_eq_some_iff.mp ha
      obtain ⟨-, hgreatest⟩ := List.max?_eq_some_iff.mp hb
      have hmissing : missing a (b + 1) l = Finset.Ico a (b + 1) \ l.toFinset := by
        ext n
        rw [missing, Finset.mem_filter, Finset.mem_sdiff, List.mem_toFinset]
      -- the list lies in its range, and the lost numbers are the rest of it
      have hsub : l.toFinset ⊆ Finset.Ico a (b + 1) := by
        intro n hn
        rw [List.mem_toFinset] at hn
        exact Finset.mem_Ico.mpr ⟨hleast n hn, Nat.lt_succ_of_le (hgreatest n hn)⟩
      have hcard := Finset.card_sdiff_add_card_eq_card hsub
      rw [List.toFinset_card_of_nodup hnodup, Nat.card_Ico] at hcard
      rw [lost, span, ha, hb]
      dsimp only
      rw [hmissing, hcard]

end Framework
