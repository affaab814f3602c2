import Mathlib.Algebra.Field.Basic
import Mathlib.GroupTheory.OrderOfElement
import Mathlib.Tactic.Ring
import Mathlib.Tactic.NormNum.Prime
import PulseFanout.Framework.Codec
import PulseFanout.Framework.LinearSystem

/-!
# The field of the erasure code (`fec.h`, `mul`, `inverse`, `coefficient`)

Bytes with `mul` as product and exclusive or as sum are the field of 256 elements, with
the polynomial `0x11d`. `GF256` is the type of bytes with that structure.

`mul` runs through the bits of its second argument, so it is additive in both
(`mul_xor`, `xor_mul`). The ring laws are then multilinear, and it is enough to check them
on the eight powers of two (`byte_induction`).
-/

namespace PulseFanout
namespace Fec

open Framework

/-! ### The source's arithmetic -/

/-- `a <<= 1`, then `a ^= 0x1d` if the high bit was set. -/
def double (a : Byte) : Byte :=
  if a &&& 128#8 = 0#8 then a <<< 1 else (a <<< 1) ^^^ 0x1d#8

/-- The loop of `mul`, at most `fuel` rounds. -/
def mulLoop : ℕ → Byte → Byte → Byte → Byte
  | 0, out, _, _ => out
  | fuel + 1, out, a, b =>
    if b = 0#8 then out
    else mulLoop fuel (if b &&& 1#8 = 0#8 then out else out ^^^ a) (double a) (b >>> 1)

/-- `mul`. Each round shifts a bit of `b` out, so eight rounds empty it. -/
def mul (a b : Byte) : Byte := mulLoop 8 0#8 a b

/-- The loop of `inverse`, at most `fuel` rounds. -/
def powLoop : ℕ → ℕ → Byte → Byte → Byte
  | 0, _, out, _ => out
  | fuel + 1, n, out, a =>
    if n = 0 then out
    else powLoop fuel (n >>> 1) (if n &&& 1 = 0 then out else mul out a) (mul a a)

/-- `inverse`: `none` is the exception "zero GF inverse", and otherwise `a` to the power 254,
a number of eight bits. -/
def inverse (a : Byte) : Option Byte :=
  if a = 0#8 then none else some (powLoop 8 254 1#8 a)

/-- The argument `coefficient` inverts. -/
def cauchyPoint (row col : ℕ) : Byte := BitVec.ofNat 8 (col ^^^ (128 + row))

/-- `coefficient`. The exception of `inverse` is out of reach for the rows and columns the
code uses (`cauchyPoint_ne_zero`). -/
def coefficient (row col : ℕ) : Byte :=
  mul (BitVec.ofNat 8 (col ^^^ 128)) ((inverse (cauchyPoint row col)).getD 0)

/-! ### Linearity of `mul` -/

private theorem xor_cancel (c x : Byte) : c ^^^ (c ^^^ x) = x := by
  rw [← BitVec.xor_assoc, BitVec.xor_self, BitVec.zero_xor]

theorem double_xor (a b : Byte) : double (a ^^^ b) = double a ^^^ double b := by
  have hhigh : ∀ x : Byte, x &&& 128#8 = 0#8 ↔ x.msb = false := by decide
  simp only [double, hhigh, BitVec.msb_xor, BitVec.shiftLeft_xor_distrib]
  cases a.msb <;> cases b.msb
  all_goals
    simp only [Bool.xor_false, Bool.xor_true, Bool.not_true, Bool.not_false, if_true,
      Bool.true_eq_false, if_false]
    try ac_nf
  rw [xor_cancel]

/-- What the loop of `mul` adds to `out`. -/
def bitSum : ℕ → Byte → Byte → Byte
  | 0, _, _ => 0#8
  | n + 1, a, b => (if b &&& 1#8 = 0#8 then 0#8 else a) ^^^ bitSum n (double a) (b >>> 1)

theorem bitSum_zero_right (n : ℕ) (a : Byte) : bitSum n a 0#8 = 0#8 := by
  induction n generalizing a with
  | zero => rfl
  | succ n ih => simp [bitSum, ih]

theorem mulLoop_eq (fuel : ℕ) (out a b : Byte) :
    mulLoop fuel out a b = out ^^^ bitSum fuel a b := by
  induction fuel generalizing out a b with
  | zero => simp [mulLoop, bitSum]
  | succ fuel ih =>
    rw [mulLoop, bitSum]
    by_cases hb : b = 0#8
    · simp [hb, bitSum_zero_right]
    · rw [if_neg hb, ih]
      by_cases hlow : b &&& 1#8 = 0#8
      · simp [hlow]
      · simp [hlow, BitVec.xor_assoc]

theorem mul_eq (a b : Byte) : mul a b = bitSum 8 a b := by
  rw [mul, mulLoop_eq, BitVec.zero_xor]

/-- The loop of `mul` ends because `b` is zero, never for want of fuel. -/
theorem mulLoop_stops (extra : ℕ) (a b : Byte) : mulLoop (extra + 8) 0#8 a b = mul a b := by
  have hsplit : ∀ (n : ℕ) (a b : Byte), bitSum (extra + n) a b =
      bitSum n a b ^^^ bitSum extra (double^[n] a) (b >>> n) := by
    intro n
    induction n with
    | zero => intro a b; simp [bitSum]
    | succ n ih =>
      intro a b
      rw [← Nat.add_assoc, bitSum, bitSum, ih, BitVec.xor_assoc, ← BitVec.shiftRight_add,
        Nat.add_comm 1 n, Function.iterate_succ_apply]
  have hzero : b >>> 8 = 0#8 := by
    rw [BitVec.ushiftRight_eq_zero (by omega)]
  rw [mulLoop_eq, hsplit, hzero, bitSum_zero_right, mul_eq, BitVec.xor_zero, BitVec.zero_xor]

theorem bitSum_xor_left (n : ℕ) (a a' b : Byte) :
    bitSum n (a ^^^ a') b = bitSum n a b ^^^ bitSum n a' b := by
  induction n generalizing a a' b with
  | zero => simp [bitSum]
  | succ n ih =>
    simp only [bitSum, double_xor, ih]
    split
    · simp
    · ac_rfl

theorem bitSum_xor_right (n : ℕ) (a b b' : Byte) :
    bitSum n a (b ^^^ b') = bitSum n a b ^^^ bitSum n a b' := by
  have hlow : ∀ x : Byte, x &&& 1#8 = 0#8 ↔ x.getLsbD 0 = false := by decide
  induction n generalizing a b b' with
  | zero => simp [bitSum]
  | succ n ih =>
    simp only [bitSum, BitVec.ushiftRight_xor_distrib, ih, hlow, BitVec.getLsbD_xor]
    cases b.getLsbD 0 <;> cases b'.getLsbD 0
    all_goals
      simp only [Bool.xor_false, Bool.xor_true, Bool.not_true, Bool.not_false, if_true,
        Bool.true_eq_false, if_false, BitVec.zero_xor]
      try ac_nf
    rw [xor_cancel]

theorem xor_mul (a a' b : Byte) : mul (a ^^^ a') b = mul a b ^^^ mul a' b := by
  simp only [mul_eq, bitSum_xor_left]

theorem mul_xor (a b b' : Byte) : mul a (b ^^^ b') = mul a b ^^^ mul a b' := by
  simp only [mul_eq, bitSum_xor_right]

theorem mul_zero' (a : Byte) : mul a 0#8 = 0#8 := by
  rw [mul_eq, bitSum_zero_right]

theorem zero_mul' (a : Byte) : mul 0#8 a = 0#8 := by
  have h := xor_mul 0#8 0#8 a
  rwa [BitVec.xor_self, BitVec.xor_self] at h

/-! ### The field -/

/-- Every byte is a sum of powers of two. -/
theorem byte_induction {P : Byte → Prop} (zero : P 0#8) (xor : ∀ a b, P a → P b → P (a ^^^ b))
    (pow : ∀ i : Fin 8, P (BitVec.twoPow 8 i)) (a : Byte) : P a := by
  have hsum : ∀ a : Byte, a = (List.finRange 8).foldl
      (fun s i => s ^^^ (if a.getLsbD i then BitVec.twoPow 8 i else 0#8)) 0#8 := by decide +kernel
  suffices h : ∀ (l : List (Fin 8)) (s : Byte), P s →
      P (l.foldl (fun s i => s ^^^ (if a.getLsbD i then BitVec.twoPow 8 i else 0#8)) s) by
    rw [hsum a]
    exact h _ _ zero
  intro l
  induction l with
  | nil => exact fun s hs => hs
  | cons i l ih =>
    intro s hs
    refine ih _ (xor s _ hs ?_)
    split
    · exact pow i
    · exact zero

theorem mul_comm' (a b : Byte) : mul a b = mul b a := by
  induction a using byte_induction with
  | zero => rw [mul_zero', zero_mul']
  | xor a a' ha ha' => rw [xor_mul, mul_xor, ha, ha']
  | pow i =>
    induction b using byte_induction with
    | zero => rw [mul_zero', zero_mul']
    | xor b b' hb hb' => rw [xor_mul, mul_xor, hb, hb']
    | pow j =>
      have hbasis : ∀ i j : Fin 8, mul (BitVec.twoPow 8 i) (BitVec.twoPow 8 j) =
          mul (BitVec.twoPow 8 j) (BitVec.twoPow 8 i) := by decide +kernel
      exact hbasis i j

theorem mul_assoc' (a b c : Byte) : mul (mul a b) c = mul a (mul b c) := by
  induction a using byte_induction with
  | zero => simp only [zero_mul']
  | xor a a' ha ha' => simp only [xor_mul, ha, ha']
  | pow i =>
    induction b using byte_induction with
    | zero => simp only [zero_mul', mul_zero']
    | xor b b' hb hb' => simp only [xor_mul, mul_xor, hb, hb']
    | pow j =>
      induction c using byte_induction with
      | zero => simp only [mul_zero']
      | xor c c' hc hc' => simp only [mul_xor, hc, hc']
      | pow l =>
        have hbasis : ∀ i j l : Fin 8,
            mul (mul (BitVec.twoPow 8 i) (BitVec.twoPow 8 j)) (BitVec.twoPow 8 l) =
              mul (BitVec.twoPow 8 i) (mul (BitVec.twoPow 8 j) (BitVec.twoPow 8 l)) := by
          decide +kernel
        exact hbasis i j l

theorem mul_one' (a : Byte) : mul a 1#8 = a := by
  simp [mul_eq, bitSum]

/-- The bytes as a field. -/
def GF256 : Type := Byte

namespace GF256

/-- A byte as an element of the field. -/
def of (a : Byte) : GF256 := a

theorem of_injective : Function.Injective of := fun _ _ h => h

instance : DecidableEq GF256 := inferInstanceAs (DecidableEq Byte)

instance : Fintype GF256 := Fintype.ofEquiv (Fin 256)
  ⟨fun i => of (BitVec.ofFin i), fun b => BitVec.toFin b, fun _ => rfl, fun _ => rfl⟩

theorem card : Fintype.card GF256 = 256 :=
  (Fintype.ofEquiv_card _).trans (Fintype.card_fin 256)

instance : Zero GF256 := ⟨of 0#8⟩

instance : One GF256 := ⟨of 1#8⟩

instance : Add GF256 := ⟨fun a b => of (BitVec.xor a b)⟩

instance : Neg GF256 := ⟨fun a => a⟩

instance : Mul GF256 := ⟨fun a b => of (Fec.mul a b)⟩

instance : CommRing GF256 where
  nsmul := nsmulRec
  zsmul := zsmulRec
  add_assoc a b c := BitVec.xor_assoc (x := a) (y := b) (z := c)
  zero_add a := BitVec.zero_xor (x := a)
  add_zero a := BitVec.xor_zero (x := a)
  neg_add_cancel a := BitVec.xor_self (x := a)
  add_comm a b := BitVec.xor_comm a b
  left_distrib := mul_xor
  right_distrib := xor_mul
  zero_mul := zero_mul'
  mul_zero := mul_zero'
  mul_assoc := mul_assoc'
  one_mul a := (mul_comm' _ _).trans (mul_one' a)
  mul_one := mul_one'
  mul_comm := mul_comm'

@[simp] theorem of_zero : of 0#8 = 0 := rfl

@[simp] theorem of_one : of 1#8 = 1 := rfl

@[simp] theorem of_xor (a b : Byte) : of (a ^^^ b) = of a + of b := rfl

@[simp] theorem of_mul (a b : Byte) : of (Fec.mul a b) = of a * of b := rfl

@[simp] theorem of_eq_zero {a : Byte} : of a = 0 ↔ a = 0#8 := of_injective.eq_iff (b := 0#8)

/-! ### Inverses -/

/-- The element two, which generates the multiplicative group. -/
def gen : GF256 := of 2#8

theorem orderOf_gen : orderOf gen = 255 := by
  refine orderOf_eq_of_pow_and_pow_div_prime (by norm_num) (by decide +kernel) ?_
  intro q hq hdvd
  have hmem : q ∈ Nat.primeFactors 255 := Nat.mem_primeFactors.mpr ⟨hq, hdvd, by norm_num⟩
  have hfactors : Nat.primeFactors 255 = {3, 5, 17} := by decide +kernel
  rw [hfactors] at hmem
  simp only [Finset.mem_insert, Finset.mem_singleton] at hmem
  rcases hmem with rfl | rfl | rfl
  · decide +kernel
  · decide +kernel
  · decide +kernel

/-- Every nonzero element is a power of the generator: there are as many of either. -/
theorem exists_pow_gen {a : GF256} (h : a ≠ 0) : ∃ i, gen ^ i = a := by
  have hone : gen ^ 255 = 1 := orderOf_gen ▸ pow_orderOf_eq_one gen
  have hne : ∀ i, gen ^ i ≠ 0 := by
    intro i hzero
    have hpow : (gen ^ i) ^ 255 = 1 := by rw [← pow_mul, mul_comm, pow_mul, hone, one_pow]
    rw [hzero, zero_pow (by decide)] at hpow
    exact absurd hpow (by decide)
  let powers := (Finset.range 255).image fun i => gen ^ i
  have hcard : powers.card = 255 := by
    rw [Finset.card_image_of_injOn, Finset.card_range]
    intro i hi j hj heq
    exact pow_injOn_Iio_orderOf (by simpa [orderOf_gen] using hi)
      (by simpa [orderOf_gen] using hj) heq
  have hsub : powers ⊆ Finset.univ.erase 0 := by
    intro b hb
    obtain ⟨i, -, rfl⟩ := Finset.mem_image.mp hb
    exact Finset.mem_erase.mpr ⟨hne i, Finset.mem_univ _⟩
  have hall : powers = Finset.univ.erase 0 := by
    refine Finset.eq_of_subset_of_card_le hsub ?_
    rw [Finset.card_erase_of_mem (Finset.mem_univ _), Finset.card_univ, card, hcard]
  have hmem : a ∈ powers := hall ▸ Finset.mem_erase.mpr ⟨h, Finset.mem_univ a⟩
  obtain ⟨i, -, hi⟩ := Finset.mem_image.mp hmem
  exact ⟨i, hi⟩

theorem pow_eq_one {a : GF256} (h : a ≠ 0) : a ^ 255 = 1 := by
  obtain ⟨i, rfl⟩ := exists_pow_gen h
  have hone : gen ^ 255 = 1 := orderOf_gen ▸ pow_orderOf_eq_one gen
  rw [← pow_mul, mul_comm, pow_mul, hone, one_pow]

instance : Field GF256 where
  inv a := a ^ 254
  exists_pair_ne := ⟨0, 1, by decide⟩
  mul_inv_cancel a h := (pow_succ' a 254).symm.trans (pow_eq_one h)
  inv_zero := zero_pow (by decide)
  nnqsmul := _
  nnqsmul_def _ _ := rfl
  qsmul := _
  qsmul_def _ _ := rfl

/-- The loop of `inverse` is square-and-multiply. -/
theorem of_powLoop (fuel n : ℕ) (out a : Byte) (h : n < 2 ^ fuel) :
    of (powLoop fuel n out a) = of out * of a ^ n := by
  induction fuel generalizing n out a with
  | zero =>
    have hn : n = 0 := by omega
    rw [hn, powLoop, pow_zero, mul_one]
  | succ fuel ih =>
    rw [powLoop]
    split
    · next hn => rw [hn, pow_zero, mul_one]
    · have hhalf : n >>> 1 = n / 2 := Nat.shiftRight_one n
      rw [ih _ _ _ (by rw [hhalf]; omega), of_mul, ← pow_two, ← pow_mul, hhalf,
        Nat.and_one_is_mod]
      rcases Nat.mod_two_eq_zero_or_one n with heven | hodd
      · rw [heven, if_pos rfl, show 2 * (n / 2) = n by omega]
      · rw [hodd, if_neg one_ne_zero, of_mul, mul_assoc, ← pow_succ',
          show 2 * (n / 2) + 1 = n by omega]

end GF256

/-- `inverse` throws on zero and only there. -/
theorem inverse_eq {a : Byte} (h : a ≠ 0#8) :
    ∃ b, inverse a = some b ∧ GF256.of b = (GF256.of a)⁻¹ :=
  ⟨_, if_neg h, (GF256.of_powLoop 8 254 1#8 a (by decide)).trans (one_mul _)⟩

/-! ### The coefficients -/

/-- A column's point in the field. -/
def colPoint (col : ℕ) : GF256 := GF256.of (BitVec.ofNat 8 col)

/-- A row's point in the field. -/
def rowPoint (row : ℕ) : GF256 := GF256.of (BitVec.ofNat 8 (128 + row))

theorem GF256.sub_eq_add (a b : GF256) : a - b = a + b := sub_eq_add_neg a b

private theorem ofNat_injective {a b : ℕ} (ha : a < 256) (hb : b < 256)
    (h : GF256.of (BitVec.ofNat 8 a) = GF256.of (BitVec.ofNat 8 b)) : a = b := by
  have hnat := congrArg BitVec.toNat (GF256.of_injective h)
  rwa [BitVec.toNat_ofNat, BitVec.toNat_ofNat, Nat.mod_eq_of_lt ha, Nat.mod_eq_of_lt hb] at hnat

theorem colPoint_injective {a b : ℕ} (ha : a < 128) (hb : b < 128) (h : colPoint a = colPoint b) :
    a = b :=
  ofNat_injective (by omega) (by omega) h

theorem rowPoint_injective {a b : ℕ} (ha : a < 128) (hb : b < 128) (h : rowPoint a = rowPoint b) :
    a = b := by
  have := ofNat_injective (by omega) (by omega) h
  omega

/-- Rows and columns use different points. -/
theorem rowPoint_sub_colPoint_ne_zero {row col : ℕ} (hrow : row < 128) (hcol : col < 128) :
    rowPoint row - colPoint col ≠ 0 := by
  rw [sub_ne_zero]
  intro h
  have := ofNat_injective (by omega) (by omega) h
  omega

theorem of_cauchyPoint (row col : ℕ) :
    GF256.of (cauchyPoint row col) = rowPoint row - colPoint col := by
  rw [cauchyPoint, BitVec.ofNat_xor, GF256.of_xor, GF256.sub_eq_add, add_comm]
  rfl

/-- `coefficient` never runs into the exception of `inverse`. -/
theorem cauchyPoint_ne_zero {row col : ℕ} (hrow : row < 128) (hcol : col < 128) :
    cauchyPoint row col ≠ 0#8 := by
  have h := rowPoint_sub_colPoint_ne_zero hrow hcol
  rwa [← of_cauchyPoint, Ne, GF256.of_eq_zero] at h

/-- The coefficients are those of a Cauchy matrix whose columns are scaled so that row zero
is all ones. -/
theorem of_coefficient {row col : ℕ} (hrow : row < 128) (hcol : col < 128) :
    GF256.of (coefficient row col) =
      (rowPoint 0 - colPoint col) * (rowPoint row - colPoint col)⁻¹ := by
  obtain ⟨b, hb, hinv⟩ := inverse_eq (cauchyPoint_ne_zero hrow hcol)
  have hzero : GF256.of (BitVec.ofNat 8 (col ^^^ 128)) = rowPoint 0 - colPoint col :=
    of_cauchyPoint 0 col
  rw [coefficient, hb, Option.getD_some, GF256.of_mul, hinv, of_cauchyPoint, hzero]

/-- **Parity row zero is plain exclusive or.** -/
theorem coefficient_zero {col : ℕ} (hcol : col < 128) : coefficient 0 col = 1#8 := by
  apply GF256.of_injective
  rw [of_coefficient (by decide) hcol,
    mul_inv_cancel₀ (rowPoint_sub_colPoint_ne_zero (by decide) hcol), GF256.of_one]

/-- **Any square choice of rows and columns is regular.** -/
theorem coefficient_kernel {ι : Type*} [Fintype ι] {rows cols : ι → ℕ}
    (hrows : Function.Injective rows) (hcols : Function.Injective cols)
    (hrow : ∀ r, rows r < 128) (hcol : ∀ c, cols c < 128) {x : ι → GF256}
    (h : ∀ r, ∑ c, GF256.of (coefficient (rows r) (cols c)) * x c = 0) : x = 0 := by
  have hscaled : (fun c => (rowPoint 0 - colPoint (cols c)) * x c) = 0 := by
    refine LinearSystem.cauchy_kernel (x := fun r => rowPoint (rows r))
      (y := fun c => colPoint (cols c)) ?_ ?_ ?_ ?_
    · intro r s heq
      exact hrows (rowPoint_injective (hrow r) (hrow s) heq)
    · intro c d heq
      exact hcols (colPoint_injective (hcol c) (hcol d) heq)
    · intro r c
      exact rowPoint_sub_colPoint_ne_zero (hrow r) (hcol c)
    · intro r
      rw [← h r]
      refine Finset.sum_congr rfl fun c _ => ?_
      rw [of_coefficient (hrow r) (hcol c)]
      ring
  funext c
  have hc := congrFun hscaled c
  exact (mul_eq_zero.mp hc).resolve_left (rowPoint_sub_colPoint_ne_zero (by decide) (hcol c))

end Fec
end PulseFanout
