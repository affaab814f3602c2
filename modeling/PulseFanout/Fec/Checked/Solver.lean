import PulseFanout.Fec.Safety

/-!
# The elimination with its accesses checked (`fec.h`)

The loop of `Fec.Solver` once more, in the monad of what can go wrong: every `v[i]` of the source is
a `readAt` or `writeAt`, `inverse` of zero is its exception, and a column without a pivot, on which
the source returns false, is a fault as well.

On tables of the right shape a round that finds its pivot equals `.ok` of the round of `Fec.Solver`
(`column_eq`); that it finds one, up to the last column, is the Cauchy argument (`solve_eq`).
-/

namespace PulseFanout
namespace Fec

open Framework

namespace Checked

/-- What can go wrong. -/
inductive Trap
  /-- An index out of range. -/
  | range
  /-- A column without a pivot, or the inverse of zero. -/
  | fault (f : Fault)
deriving DecidableEq, Repr

/-- `inverse` -/
def inverse (a : Byte) : Except Trap Byte :=
  match Fec.inverse a with
  | none => .error (.fault .zeroInverse)
  | some b => .ok b

/-- `coefficient` -/
def coefficient (row col : ℕ) : Except Trap Byte := do
  let b ← inverse (cauchyPoint row col)
  return mul (BitVec.ofNat 8 (col ^^^ 128)) b

theorem coefficient_eq {row col : ℕ} (hrow : row < 128) (hcol : col < 128) :
    coefficient row col = .ok (Fec.coefficient row col) := by
  obtain ⟨b, hb, -⟩ := inverse_eq (cauchyPoint_ne_zero hrow hcol)
  rw [coefficient, inverse, Fec.coefficient, hb]
  rfl

/-- `get_u16` -/
def getU16 (block : List Byte) : Except Trap ℕ := do
  let low ← readAt .range block 0
  let high ← readAt .range block 1
  return low.toNat ||| (high.toNat <<< 8)

theorem getU16_eq {block : List Byte} (h : 2 ≤ block.length) :
    getU16 block = .ok (Fec.getU16 block) := by
  rw [getU16, readAt_of_lt (by omega) 0#8, readAt_of_lt (by omega) 0#8]
  rfl

/-- `for j < n: acc[j] ^= mul(factor, shard[j])` -/
def xorInto (factor : Byte) (n : ℕ) (acc shard : List Byte) : Except Trap (List Byte) :=
  (List.range n).foldlM (fun acc j => do
    let x ← readAt .range acc j
    let y ← readAt .range shard j
    writeAt .range acc j (x ^^^ mul factor y)) acc

/-- The first `n` bytes are changed, the others are as they were. -/
theorem xorInto_eq (factor : Byte) {n : ℕ} {acc shard : List Byte} (hacc : n ≤ acc.length)
    (hshard : n ≤ shard.length) :
    xorInto factor n acc shard = .ok (acc.mapIdx fun j x =>
      if j < n then x ^^^ mul factor (shard.getD j 0#8) else x) := by
  -- the vector after `m` rounds
  let after (m : ℕ) : List Byte :=
    acc.mapIdx fun j x => if j < m then x ^^^ mul factor (shard.getD j 0#8) else x
  have hlen (m : ℕ) : (after m).length = acc.length := List.length_mapIdx
  have hget (m : ℕ) {j : ℕ} (hj : j < acc.length) : (after m).getD j 0#8 =
      if j < m then acc.getD j 0#8 ^^^ mul factor (shard.getD j 0#8) else acc.getD j 0#8 :=
    getD_mapIdx _ _ hj
  have hzero : acc = after 0 := by
    refine ext_getD 0#8 (hlen 0).symm fun j hj => ?_
    rw [hget 0 hj, if_neg (Nat.not_lt_zero j)]
  conv_lhs => rw [xorInto, hzero]
  refine range_loop_eq (g := after) fun m hm => ?_
  have hlt : m < (after m).length := by rw [hlen]; omega
  rw [readAt_of_lt hlt 0#8, ok_bind, readAt_of_lt (by omega) 0#8, ok_bind, writeAt_of_lt hlt]
  refine congrArg Except.ok (ext_getD 0#8 ?_ fun j hj => ?_)
  · rw [List.length_set, hlen, hlen]
  · rw [List.length_set, hlen] at hj
    rw [getD_set hlt, hget _ hj, hget _ hj, hget _ (by omega)]
    by_cases hjm : j = m
    · rw [if_pos hjm, if_neg (lt_irrefl m), if_pos (by omega), hjm]
    · rw [if_neg hjm]
      by_cases hless : j < m
      · rw [if_pos hless, if_pos (by omega)]
      · rw [if_neg hless, if_neg (by omega)]

/-! ### The elimination -/

/-- `matrix[r][c]` -/
def entry (M : List (List Byte)) (r c : ℕ) : Except Trap Byte := do
  let row ← readAt .range M r
  readAt .range row c

/-- `std::swap(matrix[i], matrix[j])` -/
def swapRows (M : List (List Byte)) (i j : ℕ) : Except Trap (List (List Byte)) := do
  let x ← readAt .range M i
  let y ← readAt .range M j
  let M ← writeAt .range M i y
  writeAt .range M j x

/-- The search for a pivot, over the rows from `c` on. -/
def findPivot (M : List (List Byte)) (c : ℕ) : List ℕ → Except Trap (Option ℕ)
  | [] => return none
  | p :: rest => do
    let x ← entry M p c
    if x ≠ 0#8 then return some p else findPivot M c rest

/-- `for(auto& x:matrix[c]) x=mul(x,scale)` -/
def scaleRow (M : List (List Byte)) (c : ℕ) (scale : Byte) : Except Trap (List (List Byte)) := do
  let row ← readAt .range M c
  writeAt .range M c (row.map (mul · scale))

/-- Row `r` of a table of rows of `n` bytes: `for j < n: M[r][j]^=mul(factor,M[c][j])`. -/
def clearRow (M : List (List Byte)) (n : ℕ) (factor : Byte) (r c : ℕ) :
    Except Trap (List (List Byte)) := do
  let row ← readAt .range M r
  let pivotRow ← readAt .range M c
  let row ← xorInto factor n row pivotRow
  writeAt .range M r row

/-- The loop that clears column `c` in the other rows. -/
def clear (missing width c : ℕ) (S : System) : Except Trap System :=
  (List.range missing).foldlM (fun S r => do
    if r ≠ c then
      let factor ← entry S.matrix r c
      let matrix ← clearRow S.matrix missing factor r c
      let rhs ← clearRow S.rhs width factor r c
      return ⟨matrix, rhs⟩
    else return S) S

/-- One round: column `c`. -/
def column (missing width : ℕ) (S : System) (c : ℕ) : Except Trap System := do
  match ← findPivot S.matrix c (List.range' c (missing - c)) with
  | none => throw (.fault .noPivot)
  | some pivot =>
    let matrix ← swapRows S.matrix pivot c
    let rhs ← swapRows S.rhs pivot c
    let scale ← inverse (← entry matrix c c)
    let matrix ← scaleRow matrix c scale
    let rhs ← scaleRow rhs c scale
    clear missing width c ⟨matrix, rhs⟩

/-- The loop over the columns. -/
def solve (missing width : ℕ) (S : System) : Except Trap System :=
  (List.range missing).foldlM (column missing width) S

section Elimination

variable {m width : ℕ} {M : List (List Byte)}

theorem entry_eq (h : Table m width M) {r c : ℕ} (hr : r < m) (hc : c < width) :
    entry M r c = .ok (Fec.entry M r c) := by
  rw [entry, readAt_of_lt (h.1.symm ▸ hr) [], ok_bind,
    readAt_of_lt (by rw [h.row_length hr]; exact hc) 0#8]
  rfl

theorem swapRows_eq (h : M.length = m) {i j : ℕ} (hi : i < m) (hj : j < m) :
    swapRows M i j = .ok (Fec.swapRows M i j) := by
  rw [swapRows, readAt_of_lt (h ▸ hi) [], ok_bind, readAt_of_lt (h ▸ hj) [], ok_bind,
    writeAt_of_lt (h ▸ hi), ok_bind, writeAt_of_lt (by rw [List.length_set]; exact h ▸ hj)]
  rfl

theorem findPivot_eq (h : Table m width M) {c : ℕ} (hc : c < width) (l : List ℕ)
    (hl : ∀ p ∈ l, p < m) :
    findPivot M c l = .ok (l.find? fun p => Fec.entry M p c ≠ 0#8) := by
  induction l with
  | nil => rfl
  | cons p l ih =>
    rw [findPivot, entry_eq h (hl p List.mem_cons_self) hc, ok_bind, List.find?_cons]
    by_cases hne : Fec.entry M p c ≠ 0#8
    · rw [if_pos hne, decide_eq_true hne]
      rfl
    · rw [if_neg hne, decide_eq_false hne]
      exact ih fun p hp => hl p (List.mem_cons_of_mem _ hp)

theorem scaleRow_eq (h : M.length = m) {c : ℕ} (hc : c < m) (scale : Byte) :
    scaleRow M c scale = .ok (M.set c ((M.getD c []).map (mul · scale))) := by
  rw [scaleRow, readAt_of_lt (h ▸ hc) [], ok_bind, writeAt_of_lt (h ▸ hc)]

theorem clearRow_eq (h : Table m width M) (factor : Byte) {r c : ℕ} (hr : r < m) (hc : c < m) :
    clearRow M width factor r c =
      .ok (M.set r (addRow factor (M.getD r []) (M.getD c []))) := by
  have hrow := h.row_length hr
  have hpivot := h.row_length hc
  rw [clearRow, readAt_of_lt (h.1.symm ▸ hr) [], ok_bind, readAt_of_lt (h.1.symm ▸ hc) [], ok_bind,
    xorInto_eq factor hrow.ge hpivot.ge, ok_bind, writeAt_of_lt (h.1.symm ▸ hr)]
  refine congrArg (fun row => Except.ok (M.set r row)) (ext_getD 0#8 ?_ fun j hj => ?_)
  · rw [List.length_mapIdx, addRow, List.length_zipWith, hrow, hpivot, Nat.min_self]
  · rw [List.length_mapIdx] at hj
    rw [getD_mapIdx _ _ hj, if_pos (hrow ▸ hj), addRow,
      getD_zipWith (d := 0#8) (e := 0#8) _ _ _ hj (by omega)]

/-- The rows below `n` are cleared. -/
def cleared (factor : ℕ → Byte) (c n : ℕ) (M : List (List Byte)) : List (List Byte) :=
  M.mapIdx fun r row => if r < n ∧ r ≠ c then addRow (factor r) row (M.getD c []) else row

variable {factor : ℕ → Byte} {c n : ℕ}

theorem cleared_getD (h : M.length = m) {r : ℕ} (hr : r < m) :
    (cleared factor c n M).getD r [] =
      if r < n ∧ r ≠ c then addRow (factor r) (M.getD r []) (M.getD c []) else M.getD r [] :=
  getD_mapIdx _ _ (h ▸ hr)

theorem cleared_length : (cleared factor c n M).length = M.length := List.length_mapIdx

theorem cleared_table (h : Table m width M) (hc : c < m) :
    Table m width (cleared factor c n M) := by
  refine ⟨cleared_length.trans h.1, fun row hrow => ?_⟩
  obtain ⟨r, hr, rfl⟩ := List.getElem_of_mem hrow
  have hrm : r < m := h.1 ▸ cleared_length ▸ hr
  rw [← List.getD_eq_getElem _ [] hr, cleared_getD h.1 hrm]
  split
  · rw [addRow, List.length_zipWith, h.row_length hrm, h.row_length hc, Nat.min_self]
  · exact h.row_length hrm

theorem cleared_zero (h : M.length = m) : cleared factor c 0 M = M := by
  refine ext_getD [] cleared_length fun r hr => ?_
  rw [cleared_getD h (h ▸ cleared_length ▸ hr), if_neg fun hlt => Nat.not_lt_zero r hlt.1]

/-- The next row. -/
theorem cleared_succ (h : Table m width M) (hn : n < m) (hc : c < m) (hne : n ≠ c) :
    clearRow (cleared factor c n M) width (factor n) n c = .ok (cleared factor c (n + 1) M) := by
  have hrow : (cleared factor c n M).getD n [] = M.getD n [] := by
    rw [cleared_getD h.1 hn, if_neg fun hlt => lt_irrefl n hlt.1]
  have hpivot : (cleared factor c n M).getD c [] = M.getD c [] := by
    rw [cleared_getD h.1 hc, if_neg fun hlt => hlt.2 rfl]
  have hlt : n < (cleared factor c n M).length := by
    rw [cleared_length, h.1]
    exact hn
  rw [clearRow_eq (cleared_table h hc) _ hn hc, hrow, hpivot]
  refine congrArg Except.ok (ext_getD [] ?_ fun r hr => ?_)
  · rw [List.length_set, cleared_length, cleared_length]
  · rw [List.length_set, cleared_length, h.1] at hr
    rw [getD_set hlt, cleared_getD h.1 hr, cleared_getD h.1 hr]
    by_cases hrn : r = n
    · rw [if_pos hrn, if_pos ⟨by omega, hrn ▸ hne⟩, hrn]
    · rw [if_neg hrn]
      by_cases hless : r < n ∧ r ≠ c
      · rw [if_pos hless, if_pos ⟨by omega, hless.2⟩]
      · rw [if_neg hless, if_neg fun hless' => hless ⟨by omega, hless'.2⟩]

theorem cleared_skip (h : M.length = m) : cleared factor c (c + 1) M = cleared factor c c M := by
  refine ext_getD [] (cleared_length.trans cleared_length.symm) fun r hr => ?_
  have hrm : r < m := h ▸ cleared_length ▸ hr
  rw [cleared_getD h hrm, cleared_getD h hrm]
  by_cases hless : r < c ∧ r ≠ c
  · rw [if_pos hless, if_pos ⟨by omega, hless.2⟩]
  · rw [if_neg hless, if_neg fun hless' => hless ⟨by omega, hless'.2⟩]

/-- The factors are read from rows that are not cleared yet. -/
theorem clear_eq {S : System} (h : S.Shape m width) (hc : c < m) :
    clear m width c S = .ok ⟨cleared (fun r => Fec.entry S.matrix r c) c m S.matrix,
      cleared (fun r => Fec.entry S.matrix r c) c m S.rhs⟩ := by
  have hstart : S = ⟨cleared (fun r => Fec.entry S.matrix r c) c 0 S.matrix,
      cleared (fun r => Fec.entry S.matrix r c) c 0 S.rhs⟩ := by
    rw [cleared_zero h.matrix.1, cleared_zero h.rhs.1]
  conv_lhs => rw [clear, hstart]
  refine range_loop_eq (g := fun n => (⟨cleared (fun r => Fec.entry S.matrix r c) c n S.matrix,
    cleared (fun r => Fec.entry S.matrix r c) c n S.rhs⟩ : System)) fun n hn => ?_
  dsimp only
  by_cases hne : n ≠ c
  · have hentry : Fec.entry (cleared (fun r => Fec.entry S.matrix r c) c n S.matrix) n c =
        Fec.entry S.matrix n c := by
      rw [Fec.entry, cleared_getD h.matrix.1 hn, if_neg fun hlt => lt_irrefl n hlt.1]
      rfl
    rw [if_pos hne, entry_eq (cleared_table h.matrix hc) hn hc, ok_bind, hentry,
      cleared_succ h.matrix hn hc hne, ok_bind, cleared_succ h.rhs hn hc hne, ok_bind]
    rfl
  · obtain rfl : n = c := not_not.mp hne
    rw [if_neg hne, cleared_skip h.matrix.1, cleared_skip h.rhs.1]
    rfl

/-- What `column` does after the exchange and the scaling is the rest of `sweep`. -/
theorem cleared_sweep (h : M.length = m) {pivot : ℕ} {scale : Byte} :
    cleared factor c m ((Fec.swapRows M pivot c).set c
      (((Fec.swapRows M pivot c).getD c []).map (mul · scale))) =
      sweep c pivot scale factor M := by
  unfold cleared sweep
  dsimp only
  refine List.mapIdx_eq_mapIdx_iff.mpr fun r hr => ?_
  rw [List.length_set, swapRows_length, h] at hr
  by_cases hrc : r = c
  · rw [if_pos hrc, if_neg fun hlt => hlt.2 hrc]
  · rw [if_neg hrc, if_pos ⟨hr, hrc⟩]

/-- **One round** of the loop, where the unchecked one does not stop. -/
theorem column_eq {S S' : System} (h : S.Shape m width) (hc : c < m)
    (hcol : Fec.column m S c = .ok S') : column m width S c = .ok S' := by
  have hrange : ∀ p ∈ List.range' c (m - c), p < m := by
    intro p hp
    have := List.mem_range'_1.mp hp
    omega
  have hfind : findPivot S.matrix c (List.range' c (m - c)) = .ok (Fec.findPivot S.matrix m c) :=
    findPivot_eq h.matrix hc _ hrange
  rw [column, hfind, ok_bind]
  unfold Fec.column at hcol
  cases hpivot : Fec.findPivot S.matrix m c with
  | none =>
    rw [hpivot] at hcol
    cases hcol
  | some pivot =>
    obtain ⟨-, hp, -⟩ := findPivot_some hpivot
    rw [hpivot] at hcol
    dsimp only at hcol ⊢
    have hmatrix : Table m m (Fec.swapRows S.matrix pivot c) := h.matrix.swapRows hp hc
    have hrhs : Table m width (Fec.swapRows S.rhs pivot c) := h.rhs.swapRows hp hc
    rw [swapRows_eq h.matrix.1 hp hc, ok_bind, swapRows_eq h.rhs.1 hp hc, ok_bind,
      entry_eq hmatrix hc hc, ok_bind, inverse]
    cases hinv : Fec.inverse (Fec.entry (Fec.swapRows S.matrix pivot c) c c) with
    | none =>
      rw [hinv] at hcol
      cases hcol
    | some scale =>
      rw [hinv] at hcol
      dsimp only at hcol ⊢
      have hscaled := hmatrix.scale hc scale
      -- scaling the pivot row leaves the factors, which are in other rows, alone
      have hfactor : cleared (fun r => Fec.entry ((Fec.swapRows S.matrix pivot c).set c
          (((Fec.swapRows S.matrix pivot c).getD c []).map (mul · scale))) r c) c m =
          cleared (fun r => Fec.entry (Fec.swapRows S.matrix pivot c) r c) c m := by
        funext N
        refine List.mapIdx_eq_mapIdx_iff.mpr fun r _ => ?_
        by_cases hr : r < m ∧ r ≠ c
        · rw [if_pos hr, if_pos hr]
          dsimp only [Fec.entry]
          rw [getD_set (by rw [hmatrix.1]; exact hc), if_neg hr.2]
        · rw [if_neg hr, if_neg hr]
      rw [ok_bind, scaleRow_eq hmatrix.1 hc, ok_bind, scaleRow_eq hrhs.1 hc, ok_bind,
        clear_eq ⟨hscaled, hrhs.scale hc scale⟩ hc]
      dsimp only
      rw [hfactor, cleared_sweep h.matrix.1, cleared_sweep h.rhs.1]
      exact congrArg Except.ok (Except.ok.inj hcol)

/-- **The whole loop**, for a matrix with trivial kernel: every access is in range, every column has
a pivot and no zero is inverted. -/
theorem solve_eq {S : System} (h : S.Shape m width)
    (hker : ∀ x, (toMatrix m S.matrix).mulVec x = 0 → x = 0) :
    ∃ S', solve m width S = .ok S' ∧ Fec.solve m S = .ok S' ∧ S'.Shape m width := by
  have hstart : Progress m width S S 0 :=
    ⟨h, fun j hj => absurd hj (Nat.not_lt_zero _), hker, fun _ _ _ => Iff.rfl⟩
  obtain ⟨S', hrun, hprog, hmodel⟩ := range_loop (f := column m width)
    (P := fun c S' => Progress m width S S' c ∧ (List.range c).foldlM (Fec.column m) S = .ok S')
    (n := m) ⟨hstart, rfl⟩ fun c hc S' hS' => by
      obtain ⟨S'', hcol, hnext⟩ := hS'.1.step hc
      refine ⟨S'', column_eq hS'.1.shape hc hcol, hnext, ?_⟩
      rw [List.range_succ, List.foldlM_append, hS'.2, ok_bind, List.foldlM_cons, hcol]
      rfl
  exact ⟨S', hrun, hmodel, hprog.shape⟩

end Elimination

/-- **The elimination on the code's tables.** For distinct parity rows and as many distinct columns,
whatever the right-hand side: building the matrix inverts no zero; no round is without a pivot,
inverts zero or leaves the vectors; the matrix ends as the identity; and what is left in `rhs` is
the one solution of the system. -/
theorem erasures_solved {rows cols : List ℕ} (hrows : rows.Nodup) (hcols : cols.Nodup)
    (hlen : rows.length = cols.length) (hrow : ∀ r ∈ rows, r < 16) (hcol : ∀ c ∈ cols, c < 128)
    {width : ℕ} {rhs : List (List Byte)} (hrhs : Table cols.length width rhs) :
    (∀ r ∈ rows, ∀ c ∈ cols, coefficient r c = .ok (Fec.coefficient r c)) ∧
    ∃ M X, solve cols.length width ⟨coefficientTable rows cols, rhs⟩ = .ok ⟨M, X⟩ ∧
      Fec.solve cols.length ⟨coefficientTable rows cols, rhs⟩ = .ok ⟨M, X⟩ ∧
      Table cols.length cols.length M ∧
      (∀ r < cols.length, ∀ c < cols.length, Fec.entry M r c = if r = c then 1#8 else 0#8) ∧
      ∀ Y, Table cols.length width Y →
        ((∀ j < width, (toMatrix cols.length (coefficientTable rows cols)).mulVec
          (toVec cols.length Y j) = toVec cols.length rhs j) ↔ Y = X) := by
  have hrow' : ∀ r ∈ rows, r < 128 := fun r hr => Nat.lt_of_lt_of_le (hrow r hr) (by decide)
  have hshape : System.Shape ⟨coefficientTable rows cols, rhs⟩ cols.length width :=
    ⟨hlen ▸ coefficientTable_table rows cols, hrhs⟩
  have hker := coefficientTable_kernel hrows hcols hlen hrow' hcol
  refine ⟨fun r hr c hc => coefficient_eq (hrow' r hr) (hcol c hc), ?_⟩
  -- the two loops agree, and the unchecked one solves the system
  obtain ⟨⟨M, X⟩, hchecked, hmodel, hshape'⟩ := solve_eq hshape hker
  obtain ⟨S', hrun, -, hone, hsol⟩ := solve_spec hshape hker
  obtain rfl : S' = ⟨M, X⟩ := Except.ok.inj (hrun.symm.trans hmodel)
  refine ⟨M, X, hchecked, hmodel, hshape'.matrix, fun r hr c hc => ?_,
    fun Y hY => ⟨fun hYsol => ?_, ?_⟩⟩
  · have hentry : GF256.of (Fec.entry M r c) = if r = c then 1 else 0 := by
      have happ := congrFun (congrFun hone ⟨r, hr⟩) ⟨c, hc⟩
      simp only [Matrix.one_apply, Fin.mk.injEq] at happ
      exact happ
    apply GF256.of_injective
    rw [hentry]
    split
    · rfl
    · rfl
  · obtain ⟨M', hM'⟩ := Fec.solve_eq hshape hker hY hYsol
    exact congrArg System.rhs (Except.ok.inj (hM'.symm.trans hmodel))
  · rintro rfl
    exact hsol

/-- Two erasures and two parity rows. -/
theorem two_erasures_solved :
    ∃ M X, solve 2 1 ⟨coefficientTable [3, 0] [1, 127], [[7#8], [9#8]]⟩ = .ok ⟨M, X⟩ ∧
      (∀ r < 2, ∀ c < 2, Fec.entry M r c = if r = c then 1#8 else 0#8) := by
  have hrhs : Table 2 1 [[7#8], [9#8]] := ⟨rfl, by decide⟩
  obtain ⟨-, M, X, hrun, -, -, hone, -⟩ := erasures_solved (by decide : [3, 0].Nodup)
    (by decide : [1, 127].Nodup) rfl (by decide) (by decide) hrhs
  exact ⟨M, X, hrun, hone⟩

end Checked
end Fec
end PulseFanout
