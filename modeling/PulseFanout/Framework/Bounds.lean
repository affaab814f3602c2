import Mathlib.Data.List.GetD

/-!
# Vectors with checked indices

Code that reads and writes vectors by index, in the monad of its faults: `readAt`, `writeAt` and
`sliceAt` fail on an index out of range. To show that such code does not fault is to show that it
is equal to `.ok` of something, and the rules for that are one equation for each access, given that
the index is in range, and `range_loop`, the rule for a loop that counts: what holds before the
first round, and is carried by every round, which does not fault, holds after the last.

What a loop has written is then read off with `ext_getD`.
-/

namespace Framework

variable {ε α σ : Type} (fault : ε)

/-- `v[i]` -/
def readAt (v : List α) (i : ℕ) : Except ε α :=
  match v[i]? with
  | some x => .ok x
  | none => .error fault

/-- `v[i] = x` -/
def writeAt (v : List α) (i : ℕ) (x : α) : Except ε (List α) :=
  if i < v.length then .ok (v.set i x) else .error fault

/-- The `len` elements from `start` on. -/
def sliceAt (v : List α) (start len : ℕ) : Except ε (List α) :=
  if start + len ≤ v.length then .ok ((v.drop start).take len) else .error fault

@[simp] theorem ok_bind {β : Type} (a : α) (f : α → Except ε β) :
    (Except.ok a >>= f) = f a := rfl

@[simp] theorem pure_eq_ok (a : α) : (pure a : Except ε α) = .ok a := rfl

variable {fault}

theorem readAt_of_lt {v : List α} {i : ℕ} (h : i < v.length) (d : α) :
    readAt fault v i = .ok (v.getD i d) := by
  rw [readAt, List.getElem?_eq_getElem h, List.getD_eq_getElem _ _ h]

theorem writeAt_of_lt {v : List α} {i : ℕ} (h : i < v.length) (x : α) :
    writeAt fault v i x = .ok (v.set i x) :=
  if_pos h

theorem sliceAt_of_le {v : List α} {start len : ℕ} (h : start + len ≤ v.length) :
    sliceAt fault v start len = .ok ((v.drop start).take len) :=
  if_pos h

/-- The access in the middle of a vector, where what comes before is known. -/
theorem readAt_append {v : List α} {i : ℕ} (h : v.length = i) (x : α) (w : List α) :
    readAt fault (v ++ x :: w) i = .ok x := by
  subst h
  rw [readAt, List.getElem?_append_right (Nat.le_refl _), Nat.sub_self, List.getElem?_cons_zero]

theorem writeAt_append {v : List α} {i : ℕ} (h : v.length = i) (x y : α) (w : List α) :
    writeAt fault (v ++ x :: w) i y = .ok (v ++ y :: w) := by
  subst h
  rw [writeAt, if_pos (by rw [List.length_append, List.length_cons]; omega),
    List.set_append_right _ _ (Nat.le_refl _), Nat.sub_self, List.set_cons_zero]

/-- **The rule for a loop that counts.** -/
theorem range_loop {f : σ → ℕ → Except ε σ} {P : ℕ → σ → Prop} {n : ℕ} {s : σ} (hstart : P 0 s)
    (hround : ∀ j < n, ∀ s, P j s → ∃ s', f s j = .ok s' ∧ P (j + 1) s') :
    ∃ s', (List.range n).foldlM f s = .ok s' ∧ P n s' := by
  induction n with
  | zero => exact ⟨s, rfl, hstart⟩
  | succ n ih =>
    obtain ⟨s', hrun, hP⟩ := ih fun j hj => hround j (Nat.lt_succ_of_lt hj)
    obtain ⟨s'', hlast, hP'⟩ := hround n (Nat.lt_succ_self n) s' hP
    refine ⟨s'', ?_, hP'⟩
    rw [List.range_succ, List.foldlM_append, hrun, ok_bind, List.foldlM_cons, hlast]
    rfl

/-- The same for a loop whose state after each round is known. -/
theorem range_loop_eq {f : σ → ℕ → Except ε σ} {g : ℕ → σ} {n : ℕ}
    (hround : ∀ j < n, f (g j) j = .ok (g (j + 1))) :
    (List.range n).foldlM f (g 0) = .ok (g n) := by
  obtain ⟨s', hrun, rfl⟩ := range_loop (f := f) (P := fun j s => s = g j) (n := n) rfl
    fun j hj s hs => ⟨g (j + 1), hs ▸ hround j hj, rfl⟩
  exact hrun

/-- A loop over a vector none of whose rounds faults. -/
theorem ok_foldlM {β : Type} (f : σ → β → Except ε σ) (g : σ → β → σ)
    (h : ∀ s b, f s b = .ok (g s b)) (l : List β) (s : σ) : l.foldlM f s = .ok (l.foldl g s) := by
  induction l generalizing s with
  | nil => rfl
  | cons b l ih =>
    rw [List.foldlM_cons, h, ok_bind, List.foldl_cons]
    exact ih (g s b)

/-- Two vectors of one length with the same elements. -/
theorem ext_getD {v w : List α} (d : α) (hlen : v.length = w.length)
    (h : ∀ i < v.length, v.getD i d = w.getD i d) : v = w := by
  refine List.ext_getElem hlen fun i hi hi' => ?_
  have hget := h i hi
  rwa [List.getD_eq_getElem _ _ hi, List.getD_eq_getElem _ _ hi'] at hget

theorem getD_set {v : List α} {i j : ℕ} {x d : α} (hi : i < v.length) :
    (v.set i x).getD j d = if j = i then x else v.getD j d := by
  rw [List.getD_eq_getElem?_getD, List.getElem?_set, List.getD_eq_getElem?_getD]
  by_cases hij : j = i
  · subst hij
    rw [if_pos rfl, if_pos rfl, if_pos hi]
    rfl
  · rw [if_neg (Ne.symm hij), if_neg hij]

theorem getD_append_replicate (v : List α) (m i : ℕ) (d : α) :
    (v ++ List.replicate m d).getD i d = v.getD i d := by
  simp only [List.getD_eq_getElem?_getD, List.getElem?_append, List.getElem?_replicate]
  split
  · rfl
  · next h => split <;> simp [List.getElem?_eq_none (Nat.le_of_not_lt h)]

end Framework
