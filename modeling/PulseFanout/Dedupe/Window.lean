import Mathlib.Data.Finset.Card
import Mathlib.Data.Finset.Range
import Mathlib.Data.Nat.Bitwise
import Mathlib.Tactic.Push

/-!
# The dedupe window (`dedupe_window.h`)

`Window` keeps a base sequence number and a circular bitmap of `size` bits; bit
`seq & mask` says whether `seq`, taken in the window `[base, base + size)`, was accepted.
Two loops move the base: `slide_to`, which gives up on what it passes, and
`advance_contiguous`, which walks over an accepted run.

Sequence numbers and the base are 64-bit, so every sum below is taken modulo `2 ^ 64`.

The bitmap is words of 64 bits. `has` reads it as a predicate on sequence numbers, and
`has_set`, `has_clear` and `test_eq` are all that later proofs use of the words: a write
at `seq` changes `has` at the numbers congruent to `seq` modulo the size and nowhere else.
-/

namespace PulseFanout
namespace Dedupe

/-- The modulus of `uint64_t` arithmetic. -/
abbrev wrap : ℕ := 2 ^ 64

/-- A window size the constructor does not abort on: a power of two of at least 64. -/
structure WindowSize where
  /-- The size. -/
  val : ℕ
  /-- It is a power of two. -/
  pow : ∃ e, val = 2 ^ e
  /-- It holds at least one word. -/
  ge : 64 ≤ val
  /-- It is a `uint64_t`. -/
  lt : val < wrap

/-- `dedupe::ObserveResult` -/
inductive ObserveResult
  | accept
  | duplicate
  | tooOld
  | advanced
deriving DecidableEq, Repr

/-- The verdicts on which the receiver publishes. -/
def ObserveResult.accepts : ObserveResult → Bool
  | .accept | .advanced => true
  | .duplicate | .tooOld => false

/-- `dedupe::Counters` -/
structure Counters where
  accepted : ℕ := 0
  duplicates : ℕ := 0
  tooOld : ℕ := 0
  lostConfirmed : ℕ := 0
  windowSlides : ℕ := 0
  maxReorderDepth : ℕ := 0
  receiverSeqJumpRaw : ℕ := 0
deriving DecidableEq, Repr

/-- `dedupe::Window` -/
structure Window (w : WindowSize) where
  bits : List (BitVec 64)
  /-- One bit per number in the window. -/
  bits_length : bits.length = w.val / 64
  baseSeq : ℕ
  initialized : Bool
  counters : Counters

namespace Window

variable {w : WindowSize}

/-- A new window. -/
def fresh (w : WindowSize) : Window w where
  bits := List.replicate (w.val / 64) 0
  bits_length := List.length_replicate
  baseSeq := 0
  initialized := false
  counters := {}

/-- `seq & mask_` -/
def pos (w : WindowSize) (seq : ℕ) : ℕ := seq &&& (w.val - 1)

/-- `test` -/
def test (W : Window w) (seq : ℕ) : Bool :=
  (W.bits.getD (pos w seq >>> 6) 0 &&& (1#64 <<< (pos w seq &&& 63))) != 0#64

/-- `set` -/
def set (W : Window w) (seq : ℕ) : Window w :=
  { W with
    bits := W.bits.set (pos w seq >>> 6)
      (W.bits.getD (pos w seq >>> 6) 0 ||| (1#64 <<< (pos w seq &&& 63)))
    bits_length := by rw [List.length_set, W.bits_length] }

/-- `clear` -/
def clear (W : Window w) (seq : ℕ) : Window w :=
  { W with
    bits := W.bits.set (pos w seq >>> 6)
      (W.bits.getD (pos w seq >>> 6) 0 &&& ~~~(1#64 <<< (pos w seq &&& 63)))
    bits_length := by rw [List.length_set, W.bits_length] }

/-- The body of the loop of `slide_to`. -/
def slideStep (W : Window w) : Window w :=
  let lost := if W.test W.baseSeq then W.counters.lostConfirmed else W.counters.lostConfirmed + 1
  let W := { W with counters := { W.counters with lostConfirmed := lost } }
  { W.clear W.baseSeq with baseSeq := (W.baseSeq + 1) % wrap }

/-- `slide_to`. The base grows by one each time round and stays below `nextBase`, so the
loop runs `nextBase - base` times. -/
def slideTo (W : Window w) (nextBase : ℕ) : Window w :=
  slideStep^[nextBase - W.baseSeq] W

/-- The body of the loop of `advance_contiguous`. -/
def advanceStep (W : Window w) : Window w :=
  { W.clear W.baseSeq with baseSeq := (W.baseSeq + 1) % wrap }

/-- At most `fuel` rounds of the loop of `advance_contiguous`. -/
def advanceLoop : ℕ → Window w → Window w
  | 0, W => W
  | fuel + 1, W => if W.test W.baseSeq then advanceLoop fuel W.advanceStep else W

/-- `advance_contiguous`. Every round clears a bit, so `size` rounds are enough
(`advanceContiguous_stops`). -/
def advanceContiguous (W : Window w) : Window w := advanceLoop w.val W

/-- The base is fixed by the first number observed. -/
def start (W : Window w) (seq : ℕ) : Window w :=
  if W.initialized then W else { W with initialized := true, baseSeq := seq }

/-- `receiver_seq_jump_raw` -/
def noteJump (W : Window w) (seq : ℕ) : Window w :=
  if W.baseSeq ≤ seq then
    { W with counters :=
      { W.counters with
        receiverSeqJumpRaw := max W.counters.receiverSeqJumpRaw (seq - W.baseSeq) } }
  else W

/-- A number past the end of the window slides it until the number is the last one in it. -/
def makeRoom (W : Window w) (seq : ℕ) : ObserveResult × Window w :=
  if (W.baseSeq + w.val) % wrap ≤ seq then
    let W := W.slideTo ((seq + wrap - w.val + 1) % wrap)
    (.advanced, { W with counters :=
      { W.counters with windowSlides := W.counters.windowSlides + 1 } })
  else (.accept, W)

/-- `max_reorder_depth` -/
def noteDepth (W : Window w) (seq : ℕ) : Window w :=
  { W with counters :=
    { W.counters with
      maxReorderDepth :=
        max W.counters.maxReorderDepth ((seq + wrap - W.baseSeq) % wrap) } }

/-- `observe` -/
def observe (W : Window w) (seq : ℕ) : ObserveResult × Window w :=
  let W := (W.start seq).noteJump seq
  -- never on the first call, where the base is `seq` itself
  if seq < W.baseSeq then
    (.tooOld, { W with counters := { W.counters with tooOld := W.counters.tooOld + 1 } })
  else
    -- `kAdvanced` is decided here, before the bit is looked at
    let (result, W) := W.makeRoom seq
    let W := W.noteDepth seq
    if W.test seq then
      (.duplicate,
        { W with counters := { W.counters with duplicates := W.counters.duplicates + 1 } })
    else
      let W := W.set seq
      let W := { W with counters := { W.counters with accepted := W.counters.accepted + 1 } }
      (result, W.advanceContiguous)

/-! ### The bitmap as a predicate -/

/-- The bit of the bitmap that stands for `seq`. -/
def has (W : Window w) (seq : ℕ) : Bool :=
  (W.bits.getD (seq % w.val / 64) 0).getLsbD (seq % w.val % 64)

theorem pos_eq (w : WindowSize) (seq : ℕ) : pos w seq = seq % w.val := by
  obtain ⟨e, he⟩ := w.pow
  rw [pos, he, Nat.and_two_pow_sub_one_eq_mod]

theorem pos_word (w : WindowSize) (seq : ℕ) : pos w seq >>> 6 = seq % w.val / 64 := by
  rw [pos_eq, Nat.shiftRight_eq_div_pow]

theorem pos_bit (w : WindowSize) (seq : ℕ) : pos w seq &&& 63 = seq % w.val % 64 := by
  rw [pos_eq, show 63 = 2 ^ 6 - 1 from rfl, Nat.and_two_pow_sub_one_eq_mod]

theorem word_lt (W : Window w) (seq : ℕ) : seq % w.val / 64 < W.bits.length := by
  have hlt : seq % w.val < w.val := Nat.mod_lt _ (by have := w.ge; omega)
  obtain ⟨e, he⟩ := w.pow
  have hge := w.ge
  have hdvd : 64 ∣ w.val := by
    rw [he] at hge ⊢
    exact (Nat.pow_dvd_pow_iff_le_right (x := 2) (k := 6) (l := e) (by decide)).mpr
      ((Nat.pow_le_pow_iff_right (a := 2) (n := 6) (m := e) (by decide)).mp hge)
  rw [W.bits_length]
  exact Nat.div_lt_div_of_lt_of_dvd hdvd hlt

theorem test_eq (W : Window w) (seq : ℕ) : W.test seq = W.has seq := by
  rw [test, has, pos_word, pos_bit]
  have htwo : (1#64 <<< (seq % w.val % 64)) = BitVec.twoPow 64 (seq % w.val % 64) := rfl
  have hne : BitVec.twoPow 64 (seq % w.val % 64) ≠ 0#64 := by
    intro h
    have hbit := congrArg (fun v => v.getLsbD (seq % w.val % 64)) h
    simp [Nat.mod_lt] at hbit
  rw [htwo, BitVec.and_twoPow]
  split
  · next h => rw [h, bne_iff_ne]; exact hne
  · next h => rw [Bool.eq_false_iff.mpr h, bne_self_eq_false]

/-- Two numbers share a bit of the bitmap when they are congruent modulo the size. -/
theorem same_bit (w : WindowSize) (s seq : ℕ) : s % w.val = seq % w.val ↔
    s % w.val / 64 = seq % w.val / 64 ∧ s % w.val % 64 = seq % w.val % 64 := by
  constructor
  · intro h
    rw [h]
    exact ⟨rfl, rfl⟩
  · omega

/-- The bit of `s` after the word of `seq` was overwritten. -/
theorem getLsbD_set_word (W : Window w) (seq s : ℕ) (word : BitVec 64) :
    ((W.bits.set (seq % w.val / 64) word).getD (s % w.val / 64) 0).getLsbD (s % w.val % 64) =
      if s % w.val / 64 = seq % w.val / 64 then word.getLsbD (s % w.val % 64) else W.has s := by
  rw [List.getD_eq_getElem?_getD, List.getElem?_set]
  split
  · next h => rw [if_pos (W.word_lt seq), Option.getD_some, if_pos h.symm]
  · next h => rw [if_neg (Ne.symm h), ← List.getD_eq_getElem?_getD, has]

theorem has_set (W : Window w) (seq s : ℕ) :
    (W.set seq).has s = (decide (s % w.val = seq % w.val) || W.has s) := by
  have htwo : (1#64 <<< (seq % w.val % 64)) = BitVec.twoPow 64 (seq % w.val % 64) := rfl
  have hlt : seq % w.val % 64 < 64 := Nat.mod_lt _ (by decide)
  rw [has, set]
  dsimp only
  rw [pos_word, pos_bit, htwo, getLsbD_set_word]
  split
  · next hword =>
    rw [BitVec.getLsbD_or, BitVec.getLsbD_twoPow, ← hword, ← has, Bool.or_comm]
    simp only [same_bit, hword, hlt, decide_true, Bool.true_and, true_and, eq_comm]
  · next hword => simp [same_bit, hword]

theorem has_clear (W : Window w) (seq s : ℕ) :
    (W.clear seq).has s = (!decide (s % w.val = seq % w.val) && W.has s) := by
  have htwo : (1#64 <<< (seq % w.val % 64)) = BitVec.twoPow 64 (seq % w.val % 64) := rfl
  have hlt : seq % w.val % 64 < 64 := Nat.mod_lt _ (by decide)
  have hlt' : s % w.val % 64 < 64 := Nat.mod_lt _ (by decide)
  rw [has, clear]
  dsimp only
  rw [pos_word, pos_bit, htwo, getLsbD_set_word]
  split
  · next hword =>
    rw [BitVec.getLsbD_and, BitVec.getLsbD_not, BitVec.getLsbD_twoPow, ← hword, ← has,
      Bool.and_comm]
    simp only [same_bit, hword, hlt, hlt', decide_true, Bool.true_and, true_and, eq_comm]
  · next hword => simp [same_bit, hword]

/-- `has` depends on a number's residue only. -/
theorem has_congr (W : Window w) {a b : ℕ} (h : a % w.val = b % w.val) : W.has a = W.has b := by
  rw [has, has, h]

/-- `has` depends on the words only. -/
theorem has_of_bits {W V : Window w} (h : W.bits = V.bits) (s : ℕ) : W.has s = V.has s := by
  rw [has, has, h]

@[simp] theorem has_fresh (w : WindowSize) (s : ℕ) : (fresh w).has s = false := by
  simp only [has, fresh, List.getD_eq_getElem?_getD, List.getElem?_replicate]
  split <;> simp

@[simp] theorem set_baseSeq (W : Window w) (seq : ℕ) : (W.set seq).baseSeq = W.baseSeq := rfl

@[simp] theorem advanceStep_baseSeq (W : Window w) :
    W.advanceStep.baseSeq = (W.baseSeq + 1) % wrap := rfl

theorem has_advanceStep (W : Window w) (s : ℕ) :
    W.advanceStep.has s = (!decide (s % w.val = W.baseSeq % w.val) && W.has s) :=
  W.has_clear W.baseSeq s

@[simp] theorem slideStep_baseSeq (W : Window w) :
    W.slideStep.baseSeq = (W.baseSeq + 1) % wrap := rfl

@[simp] theorem slideStep_initialized (W : Window w) :
    W.slideStep.initialized = W.initialized := rfl

theorem has_slideStep (W : Window w) (s : ℕ) :
    W.slideStep.has s = (!decide (s % w.val = W.baseSeq % w.val) && W.has s) :=
  W.has_clear W.baseSeq s

/-! ### The loop of `advance_contiguous` stops -/

/-- The positions of the bitmap that are set. -/
def marked (W : Window w) : Finset ℕ := (Finset.range w.val).filter fun p => W.has p

theorem marked_advanceStep (W : Window w) (h : W.has W.baseSeq = true) :
    W.advanceStep.marked.card < W.marked.card := by
  have hpos : 0 < w.val := by have := w.ge; omega
  apply Finset.card_lt_card
  rw [Finset.ssubset_iff_of_subset]
  · refine ⟨W.baseSeq % w.val, ?_, ?_⟩
    · rw [marked, Finset.mem_filter, Finset.mem_range]
      exact ⟨Nat.mod_lt _ hpos, by rw [W.has_congr (Nat.mod_mod _ _), h]⟩
    · rw [marked, Finset.mem_filter, has_advanceStep]
      simp
  · intro p hp
    rw [marked, Finset.mem_filter, has_advanceStep] at hp
    rw [marked, Finset.mem_filter]
    simp only [Bool.and_eq_true] at hp
    exact ⟨hp.1, hp.2.2⟩

theorem advanceLoop_stops (fuel : ℕ) (W : Window w) (h : W.marked.card ≤ fuel) :
    (advanceLoop fuel W).has (advanceLoop fuel W).baseSeq = false := by
  have hpos : 0 < w.val := by have := w.ge; omega
  induction fuel generalizing W with
  | zero =>
    -- no bit is set, so in particular the base's is not
    rw [advanceLoop, ← Bool.not_eq_true]
    intro hhas
    have hmem : W.baseSeq % w.val ∈ W.marked := by
      rw [marked, Finset.mem_filter, Finset.mem_range]
      exact ⟨Nat.mod_lt _ hpos, by rw [W.has_congr (Nat.mod_mod _ _), hhas]⟩
    have hcard := Finset.card_pos.mpr ⟨_, hmem⟩
    omega
  | succ fuel ih =>
    rw [advanceLoop, test_eq]
    split
    · next hhas =>
      have hlt := W.marked_advanceStep hhas
      exact ih _ (by omega)
    · next hhas => exact Bool.eq_false_iff.mpr hhas

/-- `advance_contiguous` ends because its condition fails, never for want of fuel. -/
theorem advanceContiguous_stops (W : Window w) :
    W.advanceContiguous.test W.advanceContiguous.baseSeq = false := by
  rw [test_eq]
  refine advanceLoop_stops _ W ?_
  calc W.marked.card ≤ (Finset.range w.val).card := Finset.card_filter_le _ _
    _ = w.val := Finset.card_range _

/-! ### The cases of `observe` -/

/-- The windows differ in their counters only. -/
structure Agree (W V : Window w) : Prop where
  bits : W.bits = V.bits
  baseSeq : W.baseSeq = V.baseSeq
  initialized : W.initialized = V.initialized

theorem Agree.has {W V : Window w} (h : Agree W V) (s : ℕ) : W.has s = V.has s :=
  has_of_bits h.bits s

theorem noteJump_agree (W : Window w) (seq : ℕ) : Agree (W.noteJump seq) W := by
  unfold noteJump
  split
  · exact ⟨rfl, rfl, rfl⟩
  · exact ⟨rfl, rfl, rfl⟩

/-- The window on which `observe` takes its decision. -/
def opened (W : Window w) (seq : ℕ) : Window w := (W.start seq).noteJump seq

theorem observe_eq (W : Window w) (seq : ℕ) :
    W.observe seq =
      if seq < (W.opened seq).baseSeq then
        (.tooOld, { W.opened seq with counters :=
          { (W.opened seq).counters with tooOld := (W.opened seq).counters.tooOld + 1 } })
      else
        let V := ((W.opened seq).makeRoom seq).2.noteDepth seq
        if V.test seq then
          (.duplicate,
            { V with counters := { V.counters with duplicates := V.counters.duplicates + 1 } })
        else
          (((W.opened seq).makeRoom seq).1,
            ({ V.set seq with counters :=
              { V.counters with accepted := V.counters.accepted + 1 } } :
                Window w).advanceContiguous) := rfl

/-- What `observe` returns, in its three ways out. -/
theorem observe_cases (W : Window w) (seq : ℕ) :
    (seq < (W.opened seq).baseSeq ∧ (W.observe seq).1 = .tooOld ∧
      Agree (W.observe seq).2 (W.opened seq)) ∨
    ((W.opened seq).baseSeq ≤ seq ∧ ((W.opened seq).makeRoom seq).2.has seq = true ∧
      (W.observe seq).1 = .duplicate ∧
      Agree (W.observe seq).2 ((W.opened seq).makeRoom seq).2) ∨
    ((W.opened seq).baseSeq ≤ seq ∧ ((W.opened seq).makeRoom seq).2.has seq = false ∧
      (W.observe seq).1 = ((W.opened seq).makeRoom seq).1 ∧
      ∃ V, Agree V (((W.opened seq).makeRoom seq).2.set seq) ∧
        (W.observe seq).2 = V.advanceContiguous) := by
  have hdepth : (((W.opened seq).makeRoom seq).2.noteDepth seq).test seq =
      ((W.opened seq).makeRoom seq).2.has seq := test_eq _ _
  by_cases hlt : seq < (W.opened seq).baseSeq
  · rw [observe_eq, if_pos hlt]
    exact Or.inl ⟨hlt, rfl, rfl, rfl, rfl⟩
  · refine Or.inr ?_
    rw [observe_eq, if_neg hlt]
    cases hhas : ((W.opened seq).makeRoom seq).2.has seq with
    | true =>
      refine Or.inl ⟨by omega, rfl, ?_⟩
      simp only [hdepth, hhas, if_true]
      exact ⟨trivial, rfl, rfl, rfl⟩
    | false =>
      refine Or.inr ⟨by omega, rfl, ?_⟩
      simp only [hdepth, hhas, Bool.false_eq_true, if_false]
      refine ⟨trivial, _, ?_, rfl⟩
      exact ⟨rfl, rfl, rfl⟩

end Window
end Dedupe
end PulseFanout
