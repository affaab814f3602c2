import Mathlib.Data.List.Basic

/-!
# Lists that are written in place

Facts about lists for programs that write, append to and walk through their vectors: what holds of
every element after one of them is changed, what a loop of writes leaves at an index, what was found
stays found when more is appended, and what a walk that may fail returns when it does not.
-/

namespace Framework

variable {α β : Type*}

/-! ### Writing -/

theorem forall_modify {P : α → Prop} {l : List α} (h : ∀ c ∈ l, P c) (i : ℕ)
    {f : α → α} (hf : ∀ c, P c → P (f c)) : ∀ c ∈ l.modify i f, P c := by
  intro c hc
  obtain ⟨j, hj, rfl⟩ := List.getElem_of_mem hc
  rw [List.length_modify] at hj
  rw [List.getElem_modify]
  split
  · exact hf _ (h _ (List.getElem_mem _))
  · exact h _ (List.getElem_mem _)

theorem forall_set {P : α → Prop} {l : List α} (h : ∀ c ∈ l, P c) (i : ℕ) {x : α}
    (hx : P x) : ∀ c ∈ l.set i x, P c := fun c hc =>
  (List.mem_or_eq_of_mem_set hc).elim (h c) fun heq => heq ▸ hx

theorem countP_set_le (p : α → Bool) (l : List α) (i : ℕ) (a : α) :
    (l.set i a).countP p ≤ l.countP p + if p a then 1 else 0 := by
  induction l generalizing i with
  | nil => exact Nat.zero_le _
  | cons b l ih =>
    cases i with
    | zero =>
      rw [List.set_cons_zero, List.countP_cons, List.countP_cons]
      omega
    | succ i =>
      rw [List.set_cons_succ, List.countP_cons, List.countP_cons]
      have := ih i
      omega

/-- A loop that writes `f i` at each `i` of `l`. -/
theorem foldl_set (f : ℕ → α) (d : α) (l : List ℕ) (v : List α)
    (hl : ∀ i ∈ l, i < v.length) :
    (l.foldl (fun v i => v.set i (f i)) v).length = v.length ∧
      ∀ j, (l.foldl (fun v i => v.set i (f i)) v).getD j d =
        if j ∈ l then f j else v.getD j d := by
  induction l generalizing v with
  | nil => exact ⟨rfl, fun j => by simp⟩
  | cons i l ih =>
    have hi := hl i List.mem_cons_self
    obtain ⟨hlen, hval⟩ := ih (v.set i (f i)) fun k hk => by
      rw [List.length_set]
      exact hl k (List.mem_cons_of_mem _ hk)
    refine ⟨by rw [List.foldl_cons, hlen, List.length_set], fun j => ?_⟩
    rw [List.foldl_cons, hval j]
    by_cases hj : j ∈ l
    · rw [if_pos hj, if_pos (List.mem_cons_of_mem _ hj)]
    · rw [if_neg hj, List.getD_eq_getElem?_getD, List.getElem?_set]
      by_cases hij : i = j
      · subst hij
        simp [hi]
      · simp [hij, hj, Ne.symm hij]

/-- The place an entry is moved down to, and the place it leaves. -/
theorem set_set_gap (kept gap rest : List α) (g p hole : α) :
    ((kept ++ (g :: gap) ++ p :: rest).set kept.length p).set (kept.length + (g :: gap).length)
      hole = (kept ++ [p]) ++ (gap ++ [hole]) ++ rest := by
  have hwrite : (kept ++ (g :: gap) ++ p :: rest).set kept.length p =
      (kept ++ p :: gap) ++ p :: rest := by
    rw [List.append_assoc, List.set_append_right _ _ (Nat.le_refl _), Nat.sub_self]
    simp
  have hindex : kept.length + (g :: gap).length = (kept ++ p :: gap).length := by simp
  rw [hwrite, hindex, List.set_append_right _ _ (Nat.le_refl _), Nat.sub_self]
  simp

/-! ### Appending -/

theorem head?_append_of_some {l : List α} {x : α} (h : l.head? = some x)
    (more : List α) : (l ++ more).head? = some x := by
  rw [List.head?_append, h]
  rfl

theorem getElem?_concat_of_some {l : List α} {i : ℕ} {x : α} (h : l[i]? = some x)
    (y : α) : (l ++ [y])[i]? = some x := by
  obtain ⟨hi, -⟩ := List.getElem?_eq_some_iff.mp h
  rw [List.getElem?_append_left hi, h]

/-- In a sorted list what is due comes first. -/
theorem filter_due_append {R : α → α → Prop} {due : α → Bool} {l : List α}
    (hl : l.Pairwise R) (hR : ∀ a b, R a b → due b = true → due a = true) :
    l.filter due ++ l.filter (fun a => !due a) = l := by
  induction hl with
  | nil => rfl
  | @cons a l ha hl ih =>
    cases hdue : due a with
    | true =>
      rw [List.filter_cons_of_pos hdue, List.filter_cons_of_neg (by simp [hdue]), List.cons_append,
        ih]
    | false =>
      -- nothing after it is due either
      have hnone : l.filter due = [] := by
        rw [List.filter_eq_nil_iff]
        intro b hb hbdue
        rw [hR a b (ha b hb) hbdue] at hdue
        cases hdue
      rw [hnone, List.nil_append] at ih
      rw [List.filter_cons_of_neg (by simp [hdue]), hnone, List.nil_append,
        List.filter_cons_of_pos (by simp [hdue]), ih]

/-! ### Walks that may fail -/

theorem mapM_eq_some (f : α → Option β) (d : β) (l : List α)
    (h : ∀ a ∈ l, (f a).isSome) : l.mapM f = some (l.map fun a => (f a).getD d) := by
  induction l with
  | nil => rfl
  | cons a l ih =>
    obtain ⟨b, hb⟩ := Option.isSome_iff_exists.mp (h a List.mem_cons_self)
    simp [List.mapM_cons, hb, ih fun a ha => h a (List.mem_cons_of_mem _ ha)]

section Done

variable {f : α → Option β} {l : List α} {out : List β}

theorem mapM_length (h : l.mapM f = some out) : out.length = l.length := by
  induction l generalizing out with
  | nil =>
    cases h
    rfl
  | cons a l ih =>
    simp only [List.mapM_cons, Option.bind_eq_bind, Option.bind_eq_some_iff] at h
    obtain ⟨b, -, rest, hrest, hout⟩ := h
    cases hout
    rw [List.length_cons, List.length_cons, ih hrest]

theorem mem_of_mapM (h : l.mapM f = some out) {b : β} (hb : b ∈ out) : ∃ a ∈ l, f a = some b := by
  induction l generalizing out with
  | nil =>
    cases h
    cases hb
  | cons a l ih =>
    simp only [List.mapM_cons, Option.bind_eq_bind, Option.bind_eq_some_iff] at h
    obtain ⟨b', hhead, rest, hrest, hout⟩ := h
    cases hout
    rcases List.mem_cons.mp hb with rfl | hb
    · exact ⟨a, List.mem_cons_self, hhead⟩
    · obtain ⟨a', ha', heq⟩ := ih hrest hb
      exact ⟨a', List.mem_cons_of_mem a ha', heq⟩

end Done

end Framework
