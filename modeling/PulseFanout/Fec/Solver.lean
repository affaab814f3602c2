import Mathlib.Data.List.GetD
import PulseFanout.Framework.Bounds
import PulseFanout.Fec.Field

/-!
# The elimination loop of `try_recover` (`fec.h`)

`solve` is the loop over the columns, on the vectors the source keeps: for each column it
looks for a nonzero entry at or below the diagonal, exchanges rows, scales by the inverse
of the pivot and clears the column in every other row, doing to `rhs` what it does to
`matrix`. It stops when a column has no pivot; `inverse` could throw besides.

`entry` reads both vectors as functions of two indices. One round of the loop is then one
`pivotStep` of the library (`column_eq`), and `solve_spec` follows from the library's
lemmas by induction on the number of columns done: if the kernel of the matrix is trivial
the loop never stops early, ends with the identity, and leaves the solution in `rhs`.
-/

namespace PulseFanout
namespace Fec

open Framework Framework.LinearSystem Matrix

/-! ### The loop -/

/-- `matrix[r][c]` -/
def entry (M : List (List Byte)) (r c : ℕ) : Byte := (M.getD r []).getD c 0#8

/-- `std::swap(matrix[i], matrix[j])` -/
def swapRows (M : List (List Byte)) (i j : ℕ) : List (List Byte) :=
  (M.set i (M.getD j [])).set j (M.getD i [])

/-- `for j: row[j] ^= mul(factor, pivotRow[j])` -/
def addRow (factor : Byte) (row pivotRow : List Byte) : List Byte :=
  List.zipWith (fun x y => x ^^^ mul factor y) row pivotRow

/-- What a round of the loop does to the rows of `matrix` and to those of `rhs`: exchange,
scale the pivot row, subtract its multiples from the others. -/
def sweep (c pivot : ℕ) (scale : Byte) (factor : ℕ → Byte) (rows : List (List Byte)) :
    List (List Byte) :=
  let rows := swapRows rows pivot c
  let rows := rows.set c ((rows.getD c []).map (mul · scale))
  rows.mapIdx fun r row => if r = c then row else addRow (factor r) row (rows.getD c [])

/-- How the loop can end early. -/
inductive Fault
  /-- `pivot==missing`, on which `try_recover` returns false. -/
  | noPivot
  /-- The exception of `inverse`. -/
  | zeroInverse
deriving DecidableEq, Repr

/-- The local variables `matrix` and `rhs`. -/
structure System where
  matrix : List (List Byte)
  rhs : List (List Byte)
deriving DecidableEq, Repr

/-- `while(pivot<missing && !matrix[pivot][c]) ++pivot`, from `c` on. -/
def findPivot (M : List (List Byte)) (missing c : ℕ) : Option ℕ :=
  (List.range' c (missing - c)).find? fun p => entry M p c ≠ 0#8

/-- One round: column `c`. -/
def column (missing : ℕ) (S : System) (c : ℕ) : Except Fault System :=
  match findPivot S.matrix missing c with
  | none => .error .noPivot
  | some pivot =>
    let swapped := swapRows S.matrix pivot c
    match inverse (entry swapped c c) with
    | none => .error .zeroInverse
    | some scale =>
      let factor := fun r => entry swapped r c
      .ok ⟨sweep c pivot scale factor S.matrix, sweep c pivot scale factor S.rhs⟩

/-- The loop over the columns. -/
def solve (missing : ℕ) (S : System) : Except Fault System :=
  (List.range missing).foldlM (column missing) S

/-- `matrix[r][c]=coefficient(rows[r],absent[c])` -/
def coefficientTable (rows cols : List ℕ) : List (List Byte) :=
  rows.map fun r => cols.map fun c => coefficient r c

/-! ### Entries -/

section GetD

variable {α β γ : Type}

theorem getD_mapIdx (f : ℕ → α → α) (l : List α) {r : ℕ} (hr : r < l.length) {d : α} :
    (l.mapIdx f).getD r d = f r (l.getD r d) := by
  rw [List.getD_eq_getElem _ _ (by rw [List.length_mapIdx]; exact hr), List.getElem_mapIdx,
    List.getD_eq_getElem]

theorem getD_map (f : α → β) (l : List α) {j : ℕ} (hj : j < l.length) {d : α} {e : β} :
    (l.map f).getD j e = f (l.getD j d) := by
  rw [List.getD_eq_getElem _ _ (by rw [List.length_map]; exact hj), List.getElem_map,
    List.getD_eq_getElem]

theorem getD_zipWith (f : α → β → γ) (l : List α) (k : List β) {j : ℕ} (hl : j < l.length)
    (hk : j < k.length) {d : α} {e : β} {z : γ} :
    (List.zipWith f l k).getD j z = f (l.getD j d) (k.getD j e) := by
  rw [List.getD_eq_getElem _ _ (by rw [List.length_zipWith]; exact lt_min hl hk),
    List.getElem_zipWith, List.getD_eq_getElem, List.getD_eq_getElem]

end GetD

/-- `rows` is a table of `m` rows of `width` bytes. -/
def Table (m width : ℕ) (rows : List (List Byte)) : Prop :=
  rows.length = m ∧ ∀ row ∈ rows, row.length = width

theorem Table.row_length {m width : ℕ} {rows : List (List Byte)} (h : Table m width rows) {r : ℕ}
    (hr : r < m) : (rows.getD r []).length = width := by
  rw [List.getD_eq_getElem _ _ (h.1.symm ▸ hr)]
  exact h.2 _ (List.getElem_mem _)

/-- A table is determined by its entries. -/
theorem Table.ext {m width : ℕ} {rows rows' : List (List Byte)} (h : Table m width rows)
    (h' : Table m width rows') (heq : ∀ r < m, ∀ j < width, entry rows r j = entry rows' r j) :
    rows = rows' := by
  refine List.ext_getElem (h.1.trans h'.1.symm) fun r hr hr' => ?_
  have hrm : r < m := h.1 ▸ hr
  have hlen := h.row_length hrm
  have hlen' := h'.row_length hrm
  rw [List.getD_eq_getElem _ _ hr] at hlen
  rw [List.getD_eq_getElem _ _ hr'] at hlen'
  refine List.ext_getElem (hlen.trans hlen'.symm) fun j hj hj' => ?_
  have := heq r hrm j (hlen ▸ hj)
  rwa [entry, entry, List.getD_eq_getElem _ _ hr, List.getD_eq_getElem _ _ hr',
    List.getD_eq_getElem _ _ hj, List.getD_eq_getElem _ _ hj'] at this

theorem swapRows_getD (M : List (List Byte)) {i j : ℕ} (hi : i < M.length) (hj : j < M.length)
    (r : ℕ) : (swapRows M i j).getD r [] = M.getD (Equiv.swap i j r) [] := by
  simp only [swapRows, List.getD_eq_getElem?_getD, List.getElem?_set, List.length_set,
    Equiv.swap_apply_def]
  by_cases hrj : j = r
  · subst hrj
    by_cases hri : i = j <;> simp [hri, hi, hj, eq_comm]
  · by_cases hri : i = r
    · simp [hrj, hri, hri ▸ hi]
    · simp [hrj, hri, Ne.symm hrj, Ne.symm hri]

theorem swapRows_length (M : List (List Byte)) (i j : ℕ) : (swapRows M i j).length = M.length := by
  simp [swapRows]

theorem entry_swapRows (M : List (List Byte)) {i j : ℕ} (hi : i < M.length) (hj : j < M.length)
    (r c : ℕ) : entry (swapRows M i j) r c = entry M (Equiv.swap i j r) c := by
  rw [entry, swapRows_getD M hi hj, entry]

theorem Table.swapRows {m width : ℕ} {M : List (List Byte)} (h : Table m width M) {i j : ℕ}
    (hi : i < m) (hj : j < m) : Table m width (swapRows M i j) := by
  refine ⟨(swapRows_length M i j).trans h.1, fun row hrow => ?_⟩
  rcases List.mem_or_eq_of_mem_set hrow with hrow | rfl
  · rcases List.mem_or_eq_of_mem_set hrow with hrow | rfl
    · exact h.2 row hrow
    · exact h.row_length hj
  · exact h.row_length hi

/-- The scaling of one row. -/
theorem Table.scale {m width : ℕ} {M : List (List Byte)} (h : Table m width M) {c : ℕ} (hc : c < m)
    (scale : Byte) : Table m width (M.set c ((M.getD c []).map (mul · scale))) := by
  refine ⟨List.length_set.trans h.1, fun row hrow => ?_⟩
  rcases List.mem_or_eq_of_mem_set hrow with hrow | rfl
  · exact h.2 row hrow
  · rw [List.length_map]
    exact h.row_length hc

section Sweep

variable {m width c pivot : ℕ} {scale : Byte} {factor : ℕ → Byte} {rows : List (List Byte)}

theorem sweep_length : (sweep c pivot scale factor rows).length = rows.length := by
  simp [sweep, swapRows_length]

theorem sweep_getD (h : rows.length = m) (hc : c < m) (hp : pivot < m) {r : ℕ} (hr : r < m) :
    (sweep c pivot scale factor rows).getD r [] =
      if r = c then (rows.getD pivot []).map (mul · scale)
      else addRow (factor r) (rows.getD (Equiv.swap pivot c r) [])
        ((rows.getD pivot []).map (mul · scale)) := by
  have hlen : (swapRows rows pivot c).length = m := (swapRows_length _ _ _).trans h
  have hpivot : (swapRows rows pivot c).getD c [] = rows.getD pivot [] := by
    rw [swapRows_getD rows (h ▸ hp) (h ▸ hc), Equiv.swap_apply_right]
  have hrow := swapRows_getD rows (h ▸ hp) (h ▸ hc) r
  have hnew : ((swapRows rows pivot c).set c
      (((swapRows rows pivot c).getD c []).map (mul · scale))).getD c [] =
      (rows.getD pivot []).map (mul · scale) := by
    rw [hpivot, List.getD_eq_getElem _ _ (by rw [List.length_set, hlen]; exact hc),
      List.getElem_set_self]
  have hr' : r < ((swapRows rows pivot c).set c
      (((swapRows rows pivot c).getD c []).map (mul · scale))).length := by
    rw [List.length_set, hlen]; exact hr
  rw [sweep, getD_mapIdx _ _ hr']
  by_cases hrc : r = c
  · rw [if_pos hrc, if_pos hrc, hrc, hnew]
  · rw [if_neg hrc, if_neg hrc, hnew, ← hrow, List.getD_eq_getElem?_getD,
      List.getElem?_set_ne (Ne.symm hrc), ← List.getD_eq_getElem?_getD]

theorem Table.sweep (h : Table m width rows) (hc : c < m) (hp : pivot < m) :
    Table m width (sweep c pivot scale factor rows) := by
  refine ⟨sweep_length.trans h.1, fun row hrow => ?_⟩
  obtain ⟨r, hr, rfl⟩ := List.getElem_of_mem hrow
  have hrm : r < m := h.1 ▸ sweep_length ▸ hr
  have hswap : Equiv.swap pivot c r < m := by
    rw [Equiv.swap_apply_def]; split_ifs <;> assumption
  rw [← List.getD_eq_getElem _ [] hr, sweep_getD h.1 hc hp hrm]
  split
  · rw [List.length_map, h.row_length hp]
  · rw [addRow, List.length_zipWith, List.length_map, h.row_length hp, h.row_length hswap,
      Nat.min_self]

theorem entry_sweep (h : Table m width rows) (hc : c < m) (hp : pivot < m) {r j : ℕ} (hr : r < m)
    (hj : j < width) :
    entry (sweep c pivot scale factor rows) r j =
      if r = c then mul (entry rows pivot j) scale
      else entry rows (Equiv.swap pivot c r) j ^^^
        mul (factor r) (mul (entry rows pivot j) scale) := by
  have hswap : Equiv.swap pivot c r < m := by
    rw [Equiv.swap_apply_def]; split_ifs <;> assumption
  have hp' : j < (rows.getD pivot []).length := by rw [h.row_length hp]; exact hj
  have hs' : j < (rows.getD (Equiv.swap pivot c r) []).length := by
    rw [h.row_length hswap]; exact hj
  rw [entry, sweep_getD h.1 hc hp hr, entry, entry]
  split
  · rw [getD_map _ _ hp']
  · rw [addRow, getD_zipWith (d := 0#8) (e := 0#8) _ _ _ hs' (by rw [List.length_map]; exact hp'),
      getD_map _ _ hp']

end Sweep

/-! ### One round is one elimination step -/

/-- The matrix of a table. -/
def toMatrix (m : ℕ) (M : List (List Byte)) : Matrix (Fin m) (Fin m) GF256 :=
  fun r c => GF256.of (entry M r c)

/-- Byte `j` of every row. -/
def toVec (m : ℕ) (rows : List (List Byte)) (j : ℕ) : Fin m → GF256 :=
  fun r => GF256.of (entry rows r j)

/-- The shapes of the two vectors. -/
structure System.Shape (S : System) (m width : ℕ) : Prop where
  matrix : Table m m S.matrix
  rhs : Table m width S.rhs

theorem findPivot_some {M : List (List Byte)} {missing c p : ℕ}
    (h : findPivot M missing c = some p) : c ≤ p ∧ p < missing ∧ entry M p c ≠ 0#8 := by
  have hmem := List.mem_range'_1.mp (List.mem_of_find?_eq_some h)
  have hne := List.find?_some h
  exact ⟨hmem.1, by omega, by simpa using hne⟩

theorem findPivot_none {M : List (List Byte)} {missing c : ℕ}
    (h : findPivot M missing c = none) {p : ℕ} (hc : c ≤ p) (hp : p < missing) :
    entry M p c = 0#8 := by
  have := List.find?_eq_none.mp h p (List.mem_range'_1.mpr ⟨hc, by omega⟩)
  simpa using this

/-- A row of a swept table, in the field. -/
theorem of_entry_sweep {m width : ℕ} {c p r : Fin m} {scale : Byte} {rows M : List (List Byte)}
    (h : Table m width rows) (hM : M.length = m)
    (hscale : GF256.of scale = (GF256.of (entry (swapRows M p c) c c))⁻¹) {j : ℕ} (hj : j < width) :
    GF256.of (entry (sweep c p scale (fun r => entry (swapRows M p c) r c) rows) r j) =
      pivotVec (toMatrix m M) c p (toVec m rows j) r := by
  have hswap : ∀ r : Fin m, ((Equiv.swap p c r : Fin m) : ℕ) = Equiv.swap (p : ℕ) c r := by
    intro r
    simp only [Equiv.swap_apply_def, Fin.ext_iff]
    split_ifs <;> rfl
  have hpM : (p : ℕ) < M.length := hM ▸ p.2
  have hcM : (c : ℕ) < M.length := hM ▸ c.2
  have hpivot : (Equiv.swap p c c : Fin m) = p := Equiv.swap_apply_right p c
  rw [entry_sweep h c.2 p.2 r.2 hj]
  simp only [pivotVec, clearWith, exchange, toMatrix, toVec, hpivot, hswap, Fin.ext_iff]
  rw [entry_swapRows M hpM hcM, Equiv.swap_apply_right] at hscale
  split
  · rw [GF256.of_mul, hscale]
  · rw [GF256.of_xor, GF256.of_mul, GF256.of_mul, hscale, GF256.sub_eq_add,
      entry_swapRows M hpM hcM]

/-- **One round.** With a pivot in column `c` the round succeeds and is an elimination
step. -/
theorem column_eq {m width : ℕ} {S : System} (h : S.Shape m width) (c : Fin m) {q : ℕ}
    (hq : findPivot S.matrix m c = some q) :
    ∃ (p : Fin m) (S' : System), c ≤ p ∧ toMatrix m S.matrix p c ≠ 0 ∧
      column m S c = .ok S' ∧ S'.Shape m width ∧
      toMatrix m S'.matrix = pivotStep (toMatrix m S.matrix) c p ∧
      ∀ j < width, toVec m S'.rhs j = pivotVec (toMatrix m S.matrix) c p (toVec m S.rhs j) := by
  obtain ⟨hle, hlt, hne⟩ := findPivot_some hq
  let p : Fin m := ⟨q, hlt⟩
  have hswapped : entry (swapRows S.matrix p c) c c = entry S.matrix p c := by
    rw [entry_swapRows S.matrix (h.matrix.1 ▸ p.2) (h.matrix.1 ▸ c.2), Equiv.swap_apply_right]
  obtain ⟨scale, hinv, hscale⟩ := inverse_eq (a := entry (swapRows S.matrix p c) c c)
    (by rw [hswapped]; exact hne)
  refine ⟨p, ⟨sweep c p scale (fun r => entry (swapRows S.matrix p c) r c) S.matrix,
      sweep c p scale (fun r => entry (swapRows S.matrix p c) r c) S.rhs⟩,
    hle, fun hzero => hne (GF256.of_eq_zero.mp hzero), ?_, ?_, ?_, ?_⟩
  · simp only [column, hq]
    rw [hinv]
  · exact ⟨h.matrix.sweep c.2 p.2, h.rhs.sweep c.2 p.2⟩
  · funext r j
    exact of_entry_sweep h.matrix h.matrix.1 hscale j.2
  · intro j hj
    funext r
    exact of_entry_sweep h.rhs h.matrix.1 hscale hj

/-- A round that succeeds keeps the shapes. -/
theorem column_shape {m width : ℕ} {S S' : System} (h : S.Shape m width) {c : ℕ} (hc : c < m)
    (hcolumn : column m S c = .ok S') : S'.Shape m width := by
  unfold column at hcolumn
  split at hcolumn
  · cases hcolumn
  next pivot hpivot =>
  have hp := (findPivot_some hpivot).2.1
  dsimp only at hcolumn
  split at hcolumn
  · cases hcolumn
  · cases hcolumn
    exact ⟨h.matrix.sweep hc hp, h.rhs.sweep hc hp⟩

/-! ### The whole loop -/

/-- So does the loop, whether the matrix is regular or not. -/
theorem solve_shape {m width : ℕ} {S S' : System} (h : S.Shape m width)
    (hsolve : solve m S = .ok S') : S'.Shape m width := by
  have hrounds : ∀ (cols : List ℕ) (S : System), (∀ c ∈ cols, c < m) → S.Shape m width →
      cols.foldlM (column m) S = .ok S' → S'.Shape m width := by
    intro cols
    induction cols with
    | nil =>
      rintro S - hshape hrun
      cases hrun
      exact hshape
    | cons c cols ih =>
      intro S hcols hshape hrun
      rw [List.foldlM_cons] at hrun
      cases hcolumn : column m S c with
      | error fault =>
        rw [hcolumn] at hrun
        cases hrun
      | ok S₁ =>
        rw [hcolumn] at hrun
        have hc := hcols c List.mem_cons_self
        exact ih S₁ (fun c' hc' => hcols c' (List.mem_cons_of_mem _ hc'))
          (column_shape hshape hc hcolumn) hrun
  exact hrounds _ S (fun c hc => List.mem_range.mp hc) h hsolve

/-- The state after the columns below `c`. -/
structure Progress (m width : ℕ) (S S' : System) (c : ℕ) : Prop where
  shape : S'.Shape m width
  /-- The columns below `c` are those of the identity. -/
  reduced : Reduced {j : Fin m | (j : ℕ) < c} (toMatrix m S'.matrix)
  /-- The kernel is still trivial. -/
  kernel : ∀ x, toMatrix m S'.matrix *ᵥ x = 0 → x = 0
  /-- The solutions are those of the system it started from. -/
  solutions : ∀ j < width, ∀ x, toMatrix m S'.matrix *ᵥ x = toVec m S'.rhs j ↔
    toMatrix m S.matrix *ᵥ x = toVec m S.rhs j

theorem Progress.step {m width : ℕ} {S S' : System} {c : ℕ} (h : Progress m width S S' c)
    (hc : c < m) : ∃ S'', column m S' c = .ok S'' ∧ Progress m width S S'' (c + 1) := by
  let col : Fin m := ⟨c, hc⟩
  have hcol : col ∉ {j : Fin m | (j : ℕ) < c} := fun hmem => Nat.lt_irrefl c hmem
  -- the search for a pivot succeeds because the kernel is trivial
  obtain ⟨q, hq⟩ : ∃ q, findPivot S'.matrix m c = some q := by
    cases hfind : findPivot S'.matrix m c with
    | some q => exact ⟨q, rfl⟩
    | none =>
      obtain ⟨p, hp, hne⟩ := h.reduced.exists_pivot hcol h.kernel
      have hge : c ≤ p := Nat.le_of_not_lt hp
      exact absurd (GF256.of_eq_zero.mpr (findPivot_none hfind hge p.2)) hne
  obtain ⟨p, S'', hle, hne, hok, hshape, hmatrix, hrhs⟩ := column_eq h.shape col hq
  have hp : p ∉ {j : Fin m | (j : ℕ) < c} := fun hmem => by
    have h1 : (p : ℕ) < c := hmem
    have h2 : c ≤ (p : ℕ) := hle
    omega
  refine ⟨S'', hok, hshape, ?_, ?_, ?_⟩
  · have hset : {j : Fin m | (j : ℕ) < c + 1} = insert col {j : Fin m | (j : ℕ) < c} := by
      ext j
      simp only [Set.mem_ofPred_eq, Set.mem_insert_iff, Fin.ext_iff, col]
      omega
    rw [hset, hmatrix]
    exact h.reduced.pivotStep hcol hp hne
  · rw [hmatrix]
    exact pivotStep_kernel hne h.kernel
  · intro j hj x
    rw [hmatrix, hrhs j hj, pivotStep_mulVec_eq_iff hne]
    exact h.solutions j hj x

/-- **The loop solves the system.** If only zero is in the kernel of the matrix, every round
finds a pivot, no zero is inverted, the matrix ends as the identity and `rhs` as the
solution. -/
theorem solve_spec {m width : ℕ} {S : System} (h : S.Shape m width)
    (hker : ∀ x, toMatrix m S.matrix *ᵥ x = 0 → x = 0) :
    ∃ S', solve m S = .ok S' ∧ S'.Shape m width ∧ toMatrix m S'.matrix = 1 ∧
      ∀ j < width, toMatrix m S.matrix *ᵥ toVec m S'.rhs j = toVec m S.rhs j := by
  have hstart : Progress m width S S 0 :=
    ⟨h, fun j hj => absurd hj (Nat.not_lt_zero _), hker, fun _ _ _ => Iff.rfl⟩
  obtain ⟨S', hrun, hprog⟩ := range_loop (P := fun c S' => Progress m width S S' c) hstart
    fun c hc S' hS' => hS'.step hc
  have hone : toMatrix m S'.matrix = 1 := by
    funext r c
    rw [hprog.reduced c c.2, Matrix.one_apply]
  refine ⟨S', hrun, hprog.shape, hone, fun j hj => ?_⟩
  rw [← hprog.solutions j hj, hone, Matrix.one_mulVec]

/-- A table that solves the system is what the loop leaves in `rhs`. -/
theorem solve_eq {m width : ℕ} {S : System} (h : S.Shape m width)
    (hker : ∀ x, toMatrix m S.matrix *ᵥ x = 0 → x = 0) {X : List (List Byte)}
    (hX : Table m width X)
    (hsol : ∀ j < width, toMatrix m S.matrix *ᵥ toVec m X j = toVec m S.rhs j) :
    ∃ M, solve m S = .ok ⟨M, X⟩ := by
  obtain ⟨S', hrun, hshape, -, hS'⟩ := solve_spec h hker
  refine ⟨S'.matrix, hrun.trans ?_⟩
  have hrhs : S'.rhs = X := by
    refine hshape.rhs.ext hX fun r hr j hj => ?_
    have hdiff : toVec m S'.rhs j - toVec m X j = 0 := by
      apply hker
      rw [Matrix.mulVec_sub, hS' j hj, hsol j hj, sub_self]
    exact GF256.of_injective (congrFun (sub_eq_zero.mp hdiff) ⟨r, hr⟩)
  rw [← hrhs]

/-! ### The tables of the code -/

theorem entry_map {α : Type} (f : α → List Byte) (l : List α) (d : α) {r j : ℕ}
    (hr : r < l.length) : entry (l.map f) r j = (f (l.getD r d)).getD j 0#8 := by
  rw [entry, getD_map (d := d) _ _ hr]

theorem entry_coefficientTable {rows cols : List ℕ} {r c : ℕ} (hr : r < rows.length)
    (hc : c < cols.length) :
    entry (coefficientTable rows cols) r c = coefficient (rows.getD r 0) (cols.getD c 0) := by
  rw [coefficientTable, entry_map _ _ 0 hr, getD_map (d := 0) _ _ hc]

theorem coefficientTable_table (rows cols : List ℕ) :
    Table rows.length cols.length (coefficientTable rows cols) := by
  refine ⟨List.length_map _, fun row hmem => ?_⟩
  obtain ⟨r, -, rfl⟩ := List.mem_map.mp hmem
  exact List.length_map _

private theorem getD_injective {l : List ℕ} (h : l.Nodup) {m : ℕ} (hm : l.length = m) :
    Function.Injective fun i : Fin m => l.getD i 0 := by
  subst hm
  intro i j heq
  dsimp only at heq
  rw [List.getD_eq_getElem _ _ i.2, List.getD_eq_getElem _ _ j.2, h.getElem_inj_iff] at heq
  exact Fin.ext heq

theorem getD_mem {l : List ℕ} {i : ℕ} (hi : i < l.length) : l.getD i 0 ∈ l := by
  rw [List.getD_eq_getElem _ _ hi]
  exact List.getElem_mem _

/-- Distinct rows and columns give a matrix with trivial kernel. -/
theorem coefficientTable_kernel {rows cols : List ℕ} (hrows : rows.Nodup) (hcols : cols.Nodup)
    (hlen : rows.length = cols.length) (hrow : ∀ r ∈ rows, r < 128) (hcol : ∀ c ∈ cols, c < 128)
    (x : Fin cols.length → GF256)
    (hx : toMatrix cols.length (coefficientTable rows cols) *ᵥ x = 0) : x = 0 := by
  refine coefficient_kernel (getD_injective hrows hlen) (getD_injective hcols rfl)
    (fun r => hrow _ (getD_mem (by rw [hlen]; exact r.2))) (fun c => hcol _ (getD_mem c.2)) ?_
  intro r
  have hr := congrFun hx r
  simp only [mulVec, dotProduct, toMatrix] at hr
  rw [← hr.trans (Pi.zero_apply r)]
  refine Finset.sum_congr rfl fun c _ => ?_
  rw [entry_coefficientTable (by rw [hlen]; exact r.2) c.2]

end Fec
end PulseFanout
