import PulseFanout.Framework.Lists
import PulseFanout.Fec.Checked.Solver

/-!
# `try_recover` with its accesses checked (`fec.h`)

The rest of `try_recover`: the loops that read what has come, the one that builds the system, the
check on the recovered lengths, and the one that publishes, which hands the callback a slice of the
recovered block. On a safe generation it equals `.ok` of the model's (`tryRecover_eq`).
-/

namespace PulseFanout
namespace Fec

open Framework

variable {σ : Type}

namespace Checked

/-! ### `try_recover` -/

/-- The loop that counts the frames that have not come. -/
def missing (g : Generation) : Except Trap ℕ :=
  (List.range g.k).foldlM (fun missing i => do
    let here ← readAt .range g.received i
    return if here then missing - 1 else missing) g.k

/-- A loop that pushes the indices it does not skip. -/
def collect (n : ℕ) (skip : ℕ → Except Trap Bool) : Except Trap (List ℕ) :=
  (List.range n).foldlM (fun acc i => do
    let skipped ← skip i
    return if skipped then acc else acc ++ [i]) []

/-- `absent` -/
def absent (g : Generation) : Except Trap (List ℕ) :=
  collect g.k fun i => readAt .range g.received i

/-- `rows` -/
def rows (g : Generation) : Except Trap (List ℕ) :=
  collect g.parities.length fun i => do
    let parity ← readAt .range g.parities i
    return parity.isEmpty

/-- Row `row` of `matrix`, written over the zeros it was created with. -/
def matrixRow (row : ℕ) (absent : List ℕ) (missing : ℕ) (line : List Byte) :
    Except Trap (List Byte) :=
  (List.range missing).foldlM (fun line c => do
    let col ← readAt .range absent c
    let x ← coefficient row col
    writeAt .range line c x) line

/-- What column `c` does to a row of `rhs`; `none` after the `return false`. -/
def subtract (g : Generation) (width row : ℕ) (acc : Option (List Byte)) (c : ℕ) :
    Except Trap (Option (List Byte)) :=
  match acc with
  | none => return none
  | some acc => do
    if ← readAt .range g.received c then
      let block ← readAt .range g.data c
      if block.length > width then return none
      else
        let factor ← coefficient row c
        return some (← xorInto factor block.length acc block)
    else return some acc

/-- Round `r` of the loop that builds the system. -/
def buildRow (g : Generation) (rows absent : List ℕ) (missing width : ℕ) (S : Option System)
    (r : ℕ) : Except Trap (Option System) :=
  match S with
  | none => return none
  | some S => do
    let row ← readAt .range rows r
    let parity ← readAt .range g.parities row
    let rhs := S.rhs ++ [parity]
    let line ← matrixRow row absent missing (← readAt .range S.matrix r)
    let matrix ← writeAt .range S.matrix r line
    match ← (List.range g.k).foldlM (subtract g width row) (some (← readAt .range rhs r)) with
    | none => return none
    | some out => return some ⟨matrix, ← writeAt .range rhs r out⟩

/-- The check on the lengths of the recovered blocks. -/
def lengthsOk (missing width : ℕ) (rhs : List (List Byte)) : Except Trap Bool :=
  (List.range missing).foldlM (fun ok r => do
    if ok then
      let len ← getU16 (← readAt .range rhs r)
      return len != 0 && len ≤ Wire.maxFrame && len + 2 ≤ width
    else return false) true

/-- The loop that publishes the recovered blocks, over the rounds to come. -/
def publishRecovered (publish : Publish σ) (absent : List ℕ) (rhs : List (List Byte)) :
    List ℕ → Work σ → Except Trap (Bool × Work σ)
  | [], W => return (true, W)
  | r :: rest, W => do
    let block ← readAt .range rhs r
    let frame ← sliceAt .range block 2 (← getU16 block)
    match publish frame true W.gen.closeReason W.out with
    | (false, out) => return (false, { W with out })
    | (true, out) =>
      let i ← readAt .range absent r
      let received ← writeAt .range W.gen.received i true
      let data ← writeAt .range W.gen.data i block
      publishRecovered publish absent rhs rest
        { gen := { W.gen with received, data }
          stats := { W.stats with
            counters := W.stats.counters.countRecovered W.gen.closeReason }
          out }

/-- `try_recover` -/
def tryRecover (publish : Publish σ) (now : ℕ) (W : Work σ) : Except Trap (Bool × Work σ) := do
  let g := W.gen
  if !g.parityReceived || g.recovered || g.k = 0 then return (true, W)
  else
    let missing ← missing g
    if missing = 0 then return (true, W)
    else
      let absent ← absent g
      let rows ← rows g
      if rows.length < missing then return (true, W)
      else
        let rows := rows.take missing
        let first ← readAt .range g.parities (← readAt .range rows 0)
        let width := first.length
        let matrix := List.replicate missing (List.replicate missing 0#8)
        match ← (List.range missing).foldlM (buildRow g rows absent missing width)
            (some ⟨matrix, []⟩) with
        | none => return (false, W)
        | some S =>
          let S ← solve missing width S
          if ← lengthsOk missing width S.rhs then
            match ← publishRecovered publish absent S.rhs (List.range missing) W with
            | (false, W) => return (false, W)
            | (true, W) => return (true, finishRecovery now W)
          else return (false, W)

section Recovery

variable {g : Generation}

theorem missing_eq (h : Safe g) : missing g = .ok g.missing := by
  refine range_loop_eq (g := fun n => (List.range n).foldl
    (fun missing i => if g.received.getD i false then missing - 1 else missing) g.k) fun n hn => ?_
  have hlt : n < g.received.length := by have := h.sized; have := h.lengths; omega
  rw [readAt_of_lt hlt false, ok_bind, List.range_succ, List.foldl_append]
  rfl

theorem collect_eq {n : ℕ} {skip : ℕ → Except Trap Bool} {p : ℕ → Bool}
    (hskip : ∀ i < n, skip i = .ok (p i)) :
    collect n skip = .ok ((List.range n).filter fun i => !p i) := by
  refine range_loop_eq (g := fun n => (List.range n).filter fun i => !p i) fun i hi => ?_
  rw [hskip i hi, ok_bind, List.range_succ, List.filter_append, pure_eq_ok]
  cases hp : p i with
  | true => simp [hp]
  | false => simp [hp]

theorem absent_eq (h : Safe g) : absent g = .ok g.absent := by
  refine collect_eq fun i hi => ?_
  have hlt : i < g.received.length := by have := h.sized; have := h.lengths; omega
  exact readAt_of_lt hlt false

theorem rows_eq (g : Generation) : rows g = .ok g.rows := by
  refine collect_eq fun i hi => ?_
  rw [readAt_of_lt hi [], ok_bind, pure_eq_ok]

/-- A row the elimination works with is one of a stored parity. -/
theorem row_lt (h : Safe g) {row : ℕ} (hrow : row ∈ g.rows) :
    row < g.parities.length ∧ row < 16 ∧ g.parities.getD row [] ≠ [] := by
  obtain ⟨hlt, hne⟩ := List.mem_filter.mp hrow
  have hstored : g.parities.getD row [] ≠ [] := by
    intro hnil
    rw [hnil] at hne
    cases hne
  have hcount := (h.stored row hstored).2
  exact ⟨List.mem_range.mp hlt, hcount.trans_le h.parityCount_le, hstored⟩

theorem col_lt (h : Safe g) {col : ℕ} (hcol : col < g.k) : col < 128 :=
  hcol.trans_le h.k_le

theorem matrixRow_eq {row m : ℕ} {absent : List ℕ} {line : List Byte} (hrow : row < 128)
    (habsent : absent.length = m) (hcols : ∀ c ∈ absent, c < 128) (hline : line.length = m) :
    matrixRow row absent m line = .ok (absent.map fun c => Fec.coefficient row c) := by
  have hloop := range_loop_eq (f := fun line c => do
      let col ← readAt Trap.range absent c
      let x ← coefficient row col
      writeAt .range line c x)
    (g := fun n => (absent.take n).map (Fec.coefficient row) ++ line.drop n) (n := m) fun n hn => by
      have htaken : ((absent.take n).map (Fec.coefficient row)).length = n := by
        rw [List.length_map, List.length_take]
        omega
      have hcol : absent.getD n 0 < 128 := hcols _ (getD_mem (habsent ▸ hn))
      rw [readAt_of_lt (habsent ▸ hn) 0, ok_bind, coefficient_eq hrow hcol, ok_bind,
        List.drop_eq_getElem_cons (by omega), writeAt_append htaken, List.take_add_one,
        List.getElem?_eq_getElem (by omega), Option.toList_some, List.map_append,
        List.append_assoc, List.getD_eq_getElem _ _ (by omega)]
      rfl
  rw [List.take_of_length_le habsent.le, List.drop_of_length_le hline.le, List.append_nil,
    List.take_zero, List.map_nil, List.nil_append, List.drop_zero] at hloop
  exact hloop

/-- One column. -/
theorem subtract_eq (h : Safe g) {width row : ℕ} (hrow : row < 128) {acc : List Byte}
    (hacc : acc.length = width) {c : ℕ} (hc : c < g.k) :
    subtract g width row (some acc) c = .ok (g.subtract width row acc c) := by
  have hdata : c < g.data.length := hc.trans_le h.sized
  unfold subtract Generation.subtract
  dsimp only
  rw [readAt_of_lt (h.lengths ▸ hdata) false, ok_bind]
  split
  · rw [readAt_of_lt hdata [], ok_bind]
    split
    · rfl
    · next hshort =>
      rw [coefficient_eq hrow (col_lt h hc), ok_bind, xorInto_eq _ (by omega) le_rfl]
      rfl
  · rfl

theorem subtract_length {width row c : ℕ} {acc out : List Byte}
    (hout : g.subtract width row acc c = some out) : out.length = acc.length := by
  unfold Generation.subtract at hout
  split at hout
  · split at hout
    · cases hout
    · cases hout
      exact Generation.addShard_length _ _ _
  · cases hout
    rfl

/-- The columns of one row. -/
theorem syndrome_eq (h : Safe g) {width row : ℕ} (hrow : row < 128)
    (hwidth : (g.parities.getD row []).length = width) :
    (List.range g.k).foldlM (subtract g width row) (some (g.parities.getD row [])) =
        .ok (g.syndrome width row) ∧
      ∀ out, g.syndrome width row = some out → out.length = width := by
  obtain ⟨out, hrun, heq, hlen⟩ := range_loop (f := subtract g width row)
    (P := fun n acc => acc = (List.range n).foldlM (g.subtract width row) (g.parities.getD row []) ∧
      ∀ out, acc = some out → out.length = width)
    (n := g.k) (s := some (g.parities.getD row []))
    ⟨rfl, fun out hout => Option.some.inj hout ▸ hwidth⟩ fun n hn acc hacc => by
      obtain ⟨heq, hlen⟩ := hacc
      have hnext : (List.range (n + 1)).foldlM (g.subtract width row) (g.parities.getD row []) =
          acc.bind fun acc => g.subtract width row acc n := by
        rw [List.range_succ, List.foldlM_append, ← heq]
        simp only [List.foldlM_cons, List.foldlM_nil, bind_pure]
        rfl
      cases acc with
      | none => exact ⟨none, rfl, hnext.symm, fun _ hnone => by cases hnone⟩
      | some acc =>
        refine ⟨_, subtract_eq h hrow (hlen acc rfl) hn, hnext.symm, fun out hout => ?_⟩
        rw [subtract_length hout, hlen acc rfl]
  rw [hrun, heq]
  exact ⟨rfl, fun out hout => hlen out (heq.trans hout)⟩

/-- What the system is after `n` rounds. -/
def built (g : Generation) (rows absent : List ℕ) (m width n : ℕ) : Option System :=
  ((rows.take n).mapM (g.syndrome width)).map fun rhs =>
    ⟨coefficientTable (rows.take n) absent ++ List.replicate (m - n) (List.replicate m 0#8), rhs⟩

section Build

variable {rows absent : List ℕ} {m width : ℕ}

theorem built_succ (h : Safe g) (hrows : ∀ row ∈ rows, row ∈ g.rows) (hlen : rows.length = m)
    (habsent : absent.length = m) (hcols : ∀ c ∈ absent, c < 128)
    (hwidth : ∀ row ∈ rows, (g.parities.getD row []).length = width) {r : ℕ} (hr : r < m) :
    buildRow g rows absent m width (built g rows absent m width r) r =
      .ok (built g rows absent m width (r + 1)) := by
  have htake : rows.take (r + 1) = rows.take r ++ [rows.getD r 0] := by
    rw [List.take_add_one, List.getElem?_eq_getElem (by omega), Option.toList_some,
      List.getD_eq_getElem _ _ (by omega)]
  have hmem : rows.getD r 0 ∈ rows := getD_mem (by omega)
  have hread : readAt Trap.range rows r = .ok (rows.getD r 0) := readAt_of_lt (by omega) 0
  generalize rows.getD r 0 = row at htake hmem hread
  obtain ⟨hparity, hrow, -⟩ := row_lt h (hrows row hmem)
  obtain ⟨hsyndrome, -⟩ := syndrome_eq h (by omega : row < 128) (hwidth row hmem)
  -- row `r` of the tables is still zero; the rows before it are done
  have hzeros : List.replicate (m - r) (List.replicate m 0#8) =
      List.replicate m 0#8 :: List.replicate (m - (r + 1)) (List.replicate m 0#8) := by
    rw [← List.replicate_succ]
    congr 1
    omega
  have htable : (coefficientTable (rows.take r) absent).length = r := by
    rw [coefficientTable, List.length_map, List.length_take]
    omega
  unfold built
  rw [htake, List.mapM_append]
  cases hdone : (rows.take r).mapM (g.syndrome width) with
  | none => rfl
  | some rhs =>
    have hrhs : rhs.length = r := by
      rw [mapM_length hdone, List.length_take]
      omega
    rw [Option.map_some, buildRow, hread, ok_bind, readAt_of_lt hparity [], ok_bind]
    dsimp only
    rw [hzeros, readAt_append htable, ok_bind,
      matrixRow_eq (by omega) habsent hcols List.length_replicate, ok_bind, writeAt_append htable,
      ok_bind, readAt_append hrhs, ok_bind, hsyndrome, ok_bind]
    -- a stored frame longer than the parity ends the loop with `false`
    cases hout : g.syndrome width row with
    | none =>
      simp [hout]
    | some out =>
      dsimp only
      rw [writeAt_append hrhs]
      simp [hout, coefficientTable]

/-- **The system** the source builds is the one of the model, or neither is built. -/
theorem build_eq (h : Safe g) (hrows : ∀ row ∈ rows, row ∈ g.rows) (hlen : rows.length = m)
    (habsent : absent.length = m) (hcols : ∀ c ∈ absent, c < 128)
    (hwidth : ∀ row ∈ rows, (g.parities.getD row []).length = width) :
    (List.range m).foldlM (buildRow g rows absent m width)
        (some ⟨List.replicate m (List.replicate m 0#8), []⟩) =
      .ok ((rows.mapM (g.syndrome width)).map fun rhs => ⟨coefficientTable rows absent, rhs⟩) := by
  have hloop := range_loop_eq (f := buildRow g rows absent m width)
    (g := built g rows absent m width) (n := m) fun r hr =>
      built_succ h hrows hlen habsent hcols hwidth hr
  have hstart : built g rows absent m width 0 =
      some ⟨List.replicate m (List.replicate m 0#8), []⟩ := by
    rw [built, List.take_zero, Nat.sub_zero]
    rfl
  rw [hstart, built, List.take_of_length_le hlen.le, Nat.sub_self, List.replicate_zero] at hloop
  simpa only [List.append_nil] using hloop

/-- Its shape. -/
theorem build_shape (h : Safe g) (hrows : ∀ row ∈ rows, row ∈ g.rows) (hlen : rows.length = m)
    (habsent : absent.length = m)
    (hwidth : ∀ row ∈ rows, (g.parities.getD row []).length = width) {rhs : List (List Byte)}
    (hrhs : rows.mapM (g.syndrome width) = some rhs) :
    System.Shape ⟨coefficientTable rows absent, rhs⟩ m width := by
  have htable := coefficientTable_table rows absent
  rw [hlen, habsent] at htable
  refine ⟨htable, (mapM_length hrhs).trans hlen, fun out hout => ?_⟩
  obtain ⟨row, hmem, hrow⟩ := mem_of_mapM hrhs hout
  have hlt := (row_lt h (hrows row hmem)).2.1
  exact (syndrome_eq h (by omega) (hwidth row hmem)).2 out hrow

end Build

theorem lengthsOk_eq {m width : ℕ} {rhs : List (List Byte)} (h : Table m width rhs)
    (hwidth : 2 ≤ width) : lengthsOk m width rhs = .ok (rhs.all (lengthOk width)) := by
  have hloop := range_loop_eq (f := fun ok r => do
      if ok then
        let len ← getU16 (← readAt Trap.range rhs r)
        return len != 0 && len ≤ Wire.maxFrame && len + 2 ≤ width
      else return false)
    (g := fun n => (rhs.take n).all (lengthOk width)) (n := m) fun r hr => by
      have hlt : r < rhs.length := h.1.symm ▸ hr
      have hblock := h.row_length hr
      rw [List.take_add_one, List.getElem?_eq_getElem hlt, Option.toList_some, List.all_append,
        readAt_of_lt hlt [], ok_bind, getU16_eq (by omega), ok_bind,
        List.getD_eq_getElem _ _ hlt]
      cases hall : (rhs.take r).all (lengthOk width) with
      | false => rfl
      | true =>
        rw [if_pos rfl, Bool.true_and, List.all_cons, List.all_nil, Bool.and_true]
        rfl
  rw [List.take_of_length_le h.1.le] at hloop
  exact hloop

/-- The rounds from `r` on. -/
theorem publishRecovered_eq (publish : Publish σ) {m width : ℕ} {absent : List ℕ}
    {rhs : List (List Byte)} (h : Table m width rhs) (hwidth : 2 ≤ width)
    (hok : ∀ block ∈ rhs, lengthOk width block = true) (habsent : absent.length = m) (n r : ℕ)
    (hr : r + n = m) {W : Work σ} (hreceived : ∀ i ∈ absent, i < W.gen.received.length)
    (hdata : ∀ i ∈ absent, i < W.gen.data.length) :
    publishRecovered publish absent rhs (List.range' r n) W =
      .ok (Fec.publishRecovered publish ((absent.zip rhs).drop r) W) := by
  induction n generalizing r W with
  | zero =>
    rw [List.drop_of_length_le (by rw [List.length_zip]; omega)]
    rfl
  | succ n ih =>
    have hi : r < absent.length := by omega
    have hb : r < rhs.length := by have := h.1; omega
    have hblock : (rhs.getD r []).length = width := h.row_length (by omega)
    have hlength : lengthOk width (rhs.getD r []) = true := by
      rw [List.getD_eq_getElem _ _ hb]
      exact hok _ (List.getElem_mem hb)
    -- the length check leaves the payload within the block
    have hfits : 2 + Fec.getU16 (rhs.getD r []) ≤ (rhs.getD r []).length := by
      simp only [lengthOk, Bool.and_eq_true, decide_eq_true_eq] at hlength
      omega
    have hcons : (absent.zip rhs).drop r =
        (absent.getD r 0, rhs.getD r []) :: (absent.zip rhs).drop (r + 1) := by
      rw [List.drop_eq_getElem_cons (by rw [List.length_zip]; omega), List.getElem_zip,
        List.getD_eq_getElem _ _ hi, List.getD_eq_getElem _ _ hb]
    have hmem : absent.getD r 0 ∈ absent := getD_mem hi
    rw [List.range'_succ, hcons, publishRecovered, Fec.publishRecovered, readAt_of_lt hb [],
      ok_bind, getU16_eq (by omega), ok_bind, sliceAt_of_le hfits, ok_bind]
    generalize publish _ true W.gen.closeReason W.out = answer
    obtain ⟨ok, out⟩ := answer
    cases ok with
    | false => rfl
    | true =>
      dsimp only
      rw [readAt_of_lt hi 0, ok_bind, writeAt_of_lt (hreceived _ hmem), ok_bind,
        writeAt_of_lt (hdata _ hmem), ok_bind]
      refine ih (r + 1) (by omega) (fun i hi => ?_) fun i hi => ?_
      · rw [List.length_set]
        exact hreceived i hi
      · rw [List.length_set]
        exact hdata i hi

/-- **`try_recover` on a safe generation.** -/
theorem tryRecover_eq (publish : Publish σ) (now : ℕ) {W : Work σ} (h : Safe W.gen) :
    tryRecover publish now W = .ok (Fec.tryRecover publish now W) := by
  obtain ⟨g, st, s⟩ := W
  dsimp only at h
  unfold tryRecover Fec.tryRecover
  dsimp only
  split
  · rfl
  rw [missing_eq h, ok_bind]
  split
  · rfl
  next hmissing =>
  rw [absent_eq h, ok_bind, rows_eq, ok_bind]
  split
  · rfl
  next hrows =>
  -- the rows in use, and their width
  have hsome : ∀ row ∈ g.rows.take g.missing, row ∈ g.rows := fun row => List.mem_of_mem_take
  have hlen : (g.rows.take g.missing).length = g.missing := by
    rw [List.length_take]
    omega
  have hfirst : (g.rows.take g.missing).getD 0 0 ∈ g.rows := hsome _ (getD_mem (by omega))
  obtain ⟨w, hlow, -, hw⟩ := h.width
  have hwidth : ∀ row ∈ g.rows, (g.parities.getD row []).length = w := fun row hrow =>
    hw row (row_lt h hrow).2.2
  have habsent : g.absent.length = g.missing := g.missing_eq.symm
  have hcols : ∀ c ∈ g.absent, c < g.k := fun c hc =>
    List.mem_range.mp (List.mem_of_mem_filter hc)
  rw [readAt_of_lt (by omega) 0, ok_bind, readAt_of_lt (row_lt h hfirst).1 [], ok_bind,
    hwidth _ hfirst, build_eq h hsome hlen habsent (fun c hc => col_lt h (hcols c hc))
      (fun row hrow => hwidth row (hsome row hrow)), ok_bind]
  cases hrhs : (g.rows.take g.missing).mapM (g.syndrome w) with
  | none => rfl
  | some rhs =>
    have hshape := build_shape h hsome hlen habsent
      (fun row hrow => hwidth row (hsome row hrow)) hrhs
    -- the rows and the columns are distinct points, so the matrix is regular
    have hker : ∀ x, (toMatrix g.missing
        (coefficientTable (g.rows.take g.missing) g.absent)).mulVec x = 0 → x = 0 := by
      rw [← habsent]
      refine coefficientTable_kernel ?_ (List.Nodup.filter _ List.nodup_range) ?_ ?_ ?_
      · exact (List.Nodup.filter _ List.nodup_range).sublist (List.take_sublist _ _)
      · rw [habsent, hlen]
      · intro row hrow
        have := (row_lt h (hsome row (habsent ▸ hrow))).2.1
        omega
      · exact fun c hc => col_lt h (hcols c hc)
    obtain ⟨S, hchecked, hmodel, hS⟩ := solve_eq hshape hker
    dsimp only [Option.map_some]
    rw [hchecked, ok_bind, hmodel, lengthsOk_eq hS.rhs hlow, ok_bind]
    dsimp only
    split
    · next hall =>
      have hpub := publishRecovered_eq publish hS.rhs hlow (List.all_eq_true.mp hall) habsent
        g.missing 0 (Nat.zero_add _) (W := ⟨g, st, s⟩)
        (fun i hi => h.lengths ▸ (hcols i hi).trans_le h.sized)
        (fun i hi => (hcols i hi).trans_le h.sized)
      rw [List.range_eq_range', hpub, ok_bind, List.drop_zero]
      generalize Fec.publishRecovered publish _ _ = r
      obtain ⟨ok, W⟩ := r
      cases ok <;> rfl
    · rfl

end Recovery

end Checked
end Fec
end PulseFanout
