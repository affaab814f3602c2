import Mathlib.Data.List.DropRight

/-!
# Searching a stream that comes in pieces

A reader looks for `needle` in a stream of which it gets one chunk after the other. It cannot keep
what has gone by, and keeps an end of it, `kept`, which it puts in front of the next chunk.
`Retains` is what that end has to hold: every beginning of `needle` the stream so far ends with. It
is enough for the search not to miss an occurrence across chunks (`Retains.infix_iff`).

Two ways to shorten the end are shown harmless: to what follows the last separator, if no beginning
of the needle has the separator in it (`lastPiece`), and to as many elements as the needle has.
-/

namespace Framework

variable {α : Type} {needle kept past chunk : List α}

/-- `kept` is an end of `past` that has every proper beginning of `needle` that `past` ends with. -/
structure Retains (needle kept past : List α) : Prop where
  suffix : kept <:+ past
  beginning : ∀ u, u <:+ past → u <+: needle → u ≠ needle → u <:+ kept

namespace Retains

theorem nil : Retains needle [] [] := ⟨List.suffix_rfl, fun _ hu _ _ => hu⟩

/-- The next chunk. -/
theorem append (h : Retains needle kept past) (chunk : List α) :
    Retains needle (kept ++ chunk) (past ++ chunk) := by
  refine ⟨?_, ?_⟩
  · obtain ⟨front, rfl⟩ := h.suffix
    exact ⟨front, by rw [List.append_assoc]⟩
  · intro u hu hneedle hne
    -- the beginning lies in the chunk, or it has all of it and starts before it
    rcases List.suffix_or_suffix_of_suffix hu (List.suffix_append past chunk) with hchunk | hchunk
    · exact List.suffix_append_of_suffix hchunk
    · obtain ⟨w, rfl⟩ := hchunk
      have hw : w <:+ past := List.suffix_append_self_iff.mp hu
      have hwneedle : w <+: needle := (List.prefix_append w chunk).trans hneedle
      apply List.suffix_append_self_iff.mpr
      apply h.beginning w hw hwneedle
      rintro rfl
      have hnil : chunk = [] := by
        have hlen := hneedle.length_le
        rw [List.length_append] at hlen
        exact List.eq_nil_of_length_eq_zero (by omega)
      rw [hnil, List.append_nil] at hne
      exact hne rfl

/-- **Nothing is missed across chunks, and nothing is found that is not there.** -/
theorem infix_iff (h : Retains needle kept past) (chunk : List α) :
    needle <:+: past ∨ needle <:+: kept ++ chunk ↔ needle <:+: past ++ chunk := by
  constructor
  · rintro (hpast | hkept)
    · exact List.infix_append_of_infix_left hpast
    · obtain ⟨front, rfl⟩ := h.suffix
      rw [List.append_assoc]
      exact List.infix_append_of_infix_right hkept
  · intro hall
    rcases List.infix_append_iff.mp hall with hpast | hchunk | ⟨u, v, rfl, hu, hv⟩
    · exact .inl hpast
    · exact .inr (List.infix_append_of_infix_right hchunk)
    · by_cases hnil : v = []
      · subst hnil
        rw [List.append_nil]
        exact .inl hu.isInfix
      · -- the occurrence has its beginning in what is kept
        have hne : u ≠ u ++ v := by
          intro heq
          exact hnil (List.append_cancel_left ((List.append_nil u).trans heq)).symm
        obtain ⟨s, hs⟩ := h.beginning u hu (List.prefix_append u v) hne
        obtain ⟨t, ht⟩ := hv
        refine .inr ⟨s, t, ?_⟩
        rw [← hs, ← ht]
        simp only [List.append_assoc]

/-- Only as many elements as the needle has are needed. -/
theorem rtake (h : Retains needle kept past) {n : ℕ} (hn : needle.length ≤ n) :
    Retains needle (kept.rtake n) past := by
  refine ⟨(List.drop_suffix _ _).trans h.suffix, fun u hu hneedle hne => ?_⟩
  have hkept := h.beginning u hu hneedle hne
  have hshort : u.length ≤ n := hneedle.length_le.trans hn
  refine List.suffix_of_suffix_length_le hkept (List.drop_suffix _ _) ?_
  rw [List.rtake, List.length_drop]
  have hle := hkept.length_le
  omega

end Retains

/-! ### The end after the last separator -/

variable [DecidableEq α]

/-- What follows the last `sep`. -/
def lastPiece (sep : α) (l : List α) : List α := (l.splitOn sep).getLastD []

variable {sep : α}

theorem lastPiece_of_notMem {l : List α} (h : sep ∉ l) : lastPiece sep l = l := by
  rw [lastPiece, List.splitOn_eq_singleton h]
  rfl

theorem lastPiece_append_cons (front : List α) {l : List α} (h : sep ∉ l) :
    lastPiece sep (front ++ sep :: l) = l := by
  rw [lastPiece, List.splitOn_append_cons_self, List.splitOn_eq_singleton h]
  simp only [List.getLastD_concat]

/-- A list is its last piece, or the last piece after a separator. -/
theorem lastPiece_cases (sep : α) (l : List α) :
    sep ∉ l ∧ lastPiece sep l = l ∨
      ∃ front, l = front ++ sep :: lastPiece sep l ∧ sep ∉ lastPiece sep l := by
  induction l using List.reverseRecOn with
  | nil => exact .inl ⟨List.not_mem_nil, rfl⟩
  | append_singleton l x ih =>
    -- the last element starts a new piece or lengthens the last one
    by_cases hx : x = sep
    · subst hx
      refine .inr ⟨l, ?_⟩
      rw [lastPiece_append_cons l List.not_mem_nil]
      exact ⟨rfl, List.not_mem_nil⟩
    · have hsingle : sep ∉ [x] := fun hmem => hx (List.mem_singleton.mp hmem).symm
      rcases ih with ⟨hfree, -⟩ | ⟨front, hl, hfree⟩
      · have hall : sep ∉ l ++ [x] := by
          rw [List.mem_append]
          exact not_or.mpr ⟨hfree, hsingle⟩
        exact .inl ⟨hall, lastPiece_of_notMem hall⟩
      · have hpiece : sep ∉ lastPiece sep l ++ [x] := by
          rw [List.mem_append]
          exact not_or.mpr ⟨hfree, hsingle⟩
        have hsplit : l ++ [x] = front ++ sep :: (lastPiece sep l ++ [x]) := by
          conv_lhs => rw [hl]
          simp only [List.append_assoc, List.cons_append]
        have hlast : lastPiece sep (l ++ [x]) = lastPiece sep l ++ [x] := by
          rw [hsplit]
          exact lastPiece_append_cons front hpiece
        refine .inr ⟨front, ?_⟩
        rw [hlast]
        exact ⟨hsplit, hpiece⟩

theorem lastPiece_suffix (sep : α) (l : List α) : lastPiece sep l <:+ l := by
  rcases lastPiece_cases sep l with ⟨-, heq⟩ | ⟨front, hl, -⟩
  · exact ⟨[], heq⟩
  · exact ⟨front ++ [sep], by rw [List.append_assoc]; exact hl.symm⟩

/-- An end without a separator lies in the last piece. -/
theorem suffix_lastPiece {u l : List α} (hu : u <:+ l) (hfree : sep ∉ u) :
    u <:+ lastPiece sep l := by
  rcases lastPiece_cases sep l with ⟨-, heq⟩ | ⟨front, hl, -⟩
  · rw [heq]
    exact hu
  · rw [hl] at hu
    rcases List.suffix_or_suffix_of_suffix hu
      (List.suffix_append front (sep :: lastPiece sep l)) with hshort | hlong
    · rcases List.suffix_cons_iff.mp hshort with heq | hsuffix
      · exact absurd (heq ▸ List.mem_cons_self) hfree
      · exact hsuffix
    · exact absurd (hlong.subset List.mem_cons_self) hfree

/-- What comes before the last separator is not needed. -/
theorem Retains.lastPiece (h : Retains needle kept past) (hsep : sep ∉ needle.dropLast) :
    Retains needle (lastPiece sep kept) past := by
  refine ⟨(lastPiece_suffix sep kept).trans h.suffix, fun u hu hneedle hne => ?_⟩
  refine suffix_lastPiece (h.beginning u hu hneedle hne) fun hmem => hsep ?_
  -- a proper beginning of the needle has no part of its last element
  have hlt : u.length < needle.length :=
    lt_of_le_of_ne hneedle.length_le fun hlen => hne (hneedle.eq_of_length hlen)
  have hprefix : u <+: needle.dropLast := by
    refine List.prefix_of_prefix_length_le hneedle (List.dropLast_prefix needle) ?_
    rw [List.length_dropLast]
    omega
  exact hprefix.subset hmem

end Framework
