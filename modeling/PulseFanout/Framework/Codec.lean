import Mathlib.Data.Fin.Tuple.Basic
import Mathlib.Data.Nat.Bitwise
import Mathlib.Logic.Equiv.Fin.Basic
import Mathlib.Tactic.Positivity
import Mathlib.Tactic.Ring

/-!
# Fixed-size binary codecs

A `Codec α` is one description of a record that both a writer and a reader run:
`put` appends the bytes of a value and `get` reads a value off the front of a byte
string, or fails when the string is too short. The structure carries its own laws,
so a codec whose two directions disagree cannot be built:

* `put_length` — every value takes the same number of bytes, `size`;
* `get_put` — reading back what was written returns the value and leaves the rest;
* `put_get` — whatever `get` accepts is what `put` writes, so there is one encoding
  per value and no two byte strings decode to the same one;
* `get_total` — any string of at least `size` bytes is accepted.

The combinators `pair`, `array` and `map` build the codec of a record from those of
its fields, and `uint` and `sint` are the big-endian unsigned and two's-complement
integers the fields bottom out in.
-/

namespace Framework

/-- An octet. -/
abbrev Byte := BitVec 8

/-! ### Big-endian numbers -/

/-- The `n` low-order bytes of `v`, most significant first. -/
def beBytes : ℕ → ℕ → List Byte
  | 0, _ => []
  | n + 1, v => BitVec.ofNat 8 (v >>> (8 * n)) :: beBytes n v

/-- The number a byte string spells, most significant byte first. -/
def ofBytes (bs : List Byte) : ℕ :=
  bs.foldl (fun bits b => (bits <<< 8) ||| b.toNat) 0

@[simp] theorem beBytes_length (n v : ℕ) : (beBytes n v).length = n := by
  induction n with
  | zero => rfl
  | succ n ih => simp [beBytes, ih]

/-- Shifting in one byte is a multiply-and-add. -/
theorem shift_or_byte (a : ℕ) (b : Byte) : (a <<< 8) ||| b.toNat = a * 256 + b.toNat := by
  rw [← Nat.shiftLeft_add_eq_or_of_lt b.isLt, Nat.shiftLeft_eq]

/-- Reading continues a number already read: the accumulator is scaled by the length
of what follows. -/
theorem foldl_ofBytes (bs : List Byte) (a : ℕ) :
    bs.foldl (fun bits b => (bits <<< 8) ||| b.toNat) a = a * 256 ^ bs.length + ofBytes bs := by
  unfold ofBytes
  induction bs generalizing a with
  | nil => simp
  | cons b bs ih =>
    rw [List.foldl_cons, List.foldl_cons, ih, ih (_ ||| _), shift_or_byte, shift_or_byte]
    simp only [List.length_cons]
    ring

theorem ofBytes_cons (b : Byte) (bs : List Byte) :
    ofBytes (b :: bs) = b.toNat * 256 ^ bs.length + ofBytes bs := by
  have h := foldl_ofBytes bs b.toNat
  rw [← h]
  simp [ofBytes]

theorem ofBytes_lt (bs : List Byte) : ofBytes bs < 256 ^ bs.length := by
  induction bs with
  | nil => exact Nat.one_pos
  | cons b bs ih =>
    have hb : b.toNat + 1 ≤ 256 := b.isLt
    calc ofBytes (b :: bs)
        = b.toNat * 256 ^ bs.length + ofBytes bs := ofBytes_cons b bs
      _ < b.toNat * 256 ^ bs.length + 256 ^ bs.length := by omega
      _ = (b.toNat + 1) * 256 ^ bs.length := by ring
      _ ≤ 256 * 256 ^ bs.length := Nat.mul_le_mul_right _ hb
      _ = 256 ^ (b :: bs).length := by rw [List.length_cons, Nat.pow_succ, Nat.mul_comm]

/-- Reading back `n` written bytes gives the number modulo `256 ^ n`. -/
theorem ofBytes_beBytes (n v : ℕ) : ofBytes (beBytes n v) = v % 256 ^ n := by
  induction n with
  | zero => rw [Nat.pow_zero, Nat.mod_one]; rfl
  | succ n ih =>
    have hpow : (2 : ℕ) ^ (8 * n) = 256 ^ n := by rw [Nat.pow_mul]
    rw [beBytes, ofBytes_cons, ih, beBytes_length, Nat.mod_pow_succ, BitVec.toNat_ofNat,
      Nat.shiftRight_eq_div_pow, hpow]
    ring

/-- Writing looks at the low `n` bytes only. -/
theorem beBytes_add_mul (n v x : ℕ) : beBytes n (v + 256 ^ n * x) = beBytes n v := by
  induction n generalizing x with
  | zero => rfl
  | succ n ih =>
    have hsplit : v + 256 ^ (n + 1) * x = v + 256 ^ n * (256 * x) := by ring
    have hpow : (2 : ℕ) ^ (8 * n) = 256 ^ n := by rw [Nat.pow_mul]
    rw [beBytes, beBytes, hsplit, ih]
    congr 1
    apply BitVec.eq_of_toNat_eq
    rw [BitVec.toNat_ofNat, BitVec.toNat_ofNat, Nat.shiftRight_eq_div_pow,
      Nat.shiftRight_eq_div_pow, hpow, Nat.add_mul_div_left _ _ (by positivity)]
    omega

/-- Writing the number a byte string spells gives the string back. -/
theorem beBytes_ofBytes (bs : List Byte) : beBytes bs.length (ofBytes bs) = bs := by
  induction bs with
  | nil => rfl
  | cons b bs ih =>
    have hlt := ofBytes_lt bs
    have hpow : (2 : ℕ) ^ (8 * bs.length) = 256 ^ bs.length := by rw [Nat.pow_mul]
    rw [List.length_cons, beBytes, ofBytes_cons]
    congr 1
    · apply BitVec.eq_of_toNat_eq
      rw [BitVec.toNat_ofNat, Nat.shiftRight_eq_div_pow, hpow, Nat.add_comm, Nat.mul_comm,
        Nat.add_mul_div_left _ _ (by positivity), Nat.div_eq_of_lt hlt, Nat.zero_add]
      exact Nat.mod_eq_of_lt b.isLt
    · rw [Nat.add_comm, Nat.mul_comm, beBytes_add_mul]
      exact ih

/-! ### Codecs -/

/-- A fixed-size codec: a writer, a reader, and the laws that make them inverse. -/
structure Codec (α : Type) where
  /-- The number of bytes every value takes. -/
  size : ℕ
  /-- Write a value. -/
  put : α → List Byte
  /-- Read a value off the front of a byte string, returning what follows it. -/
  get : List Byte → Option (α × List Byte)
  /-- Every value is written in `size` bytes. -/
  put_length : ∀ a, (put a).length = size
  /-- Reading undoes writing. -/
  get_put : ∀ a rest, get (put a ++ rest) = some (a, rest)
  /-- Only what `put` writes is read. -/
  put_get : ∀ {bs a rest}, get bs = some (a, rest) → bs = put a ++ rest
  /-- A long enough string is read. -/
  get_total : ∀ {bs}, size ≤ bs.length → (get bs).isSome

namespace Codec

variable {α β : Type}

/-- A string too short for the value is rejected. -/
theorem get_eq_none (c : Codec α) {bs : List Byte} (h : bs.length < c.size) :
    c.get bs = none := by
  cases hg : c.get bs with
  | none => rfl
  | some p =>
    obtain ⟨a, rest⟩ := p
    have hlen := congrArg List.length (c.put_get hg)
    rw [List.length_append, c.put_length] at hlen
    omega

/-- `get` reads exactly `size` bytes. -/
theorem get_rest (c : Codec α) {bs : List Byte} {a : α} {rest : List Byte}
    (h : c.get bs = some (a, rest)) : rest = bs.drop c.size := by
  rw [c.put_get h, ← c.put_length a, List.drop_left]

/-- A string of at least `size` bytes is read as some value. -/
theorem exists_get (c : Codec α) {bs : List Byte} (h : c.size ≤ bs.length) :
    ∃ a, c.get bs = some (a, bs.drop c.size) := by
  obtain ⟨⟨a, rest⟩, ha⟩ := Option.isSome_iff_exists.mp (c.get_total h)
  exact ⟨a, by rw [ha, c.get_rest ha]⟩

/-- Big-endian unsigned integers of `n` bytes. -/
def uint (n : ℕ) {w : ℕ} (hw : w = 8 * n) : Codec (BitVec w) where
  size := n
  put v := beBytes n v.toNat
  get bs := if bs.length < n then none else some (BitVec.ofNat w (ofBytes (bs.take n)), bs.drop n)
  put_length v := beBytes_length n v.toNat
  get_put v rest := by
    have hpow : (256 : ℕ) ^ n = 2 ^ w := by rw [hw, Nat.pow_mul]
    have hlen := beBytes_length n v.toNat
    rw [if_neg (by rw [List.length_append, hlen]; omega), List.take_left' hlen,
      List.drop_left' hlen, ofBytes_beBytes, hpow, Nat.mod_eq_of_lt v.isLt, BitVec.ofNat_toNat,
      BitVec.setWidth_eq]
  put_get {bs a rest} h := by
    have hpow : (256 : ℕ) ^ n = 2 ^ w := by rw [hw, Nat.pow_mul]
    split at h
    · cases h
    · next hlen =>
      obtain ⟨rfl, rfl⟩ := Prod.mk.inj (Option.some.inj h)
      have htake : (bs.take n).length = n := by rw [List.length_take]; omega
      have hlt := ofBytes_lt (bs.take n)
      rw [htake, hpow] at hlt
      have hbytes := beBytes_ofBytes (bs.take n)
      rw [htake] at hbytes
      rw [BitVec.toNat_ofNat, Nat.mod_eq_of_lt hlt, hbytes, List.take_append_drop]
  get_total {bs} h := by rw [if_neg (by omega)]; rfl

/-- One codec after another. -/
def pair (c : Codec α) (d : Codec β) : Codec (α × β) where
  size := c.size + d.size
  put p := c.put p.1 ++ d.put p.2
  get bs :=
    match c.get bs with
    | none => none
    | some (a, rest) =>
      match d.get rest with
      | none => none
      | some (b, rest') => some ((a, b), rest')
  put_length p := by rw [List.length_append, c.put_length, d.put_length]
  get_put p rest := by rw [List.append_assoc, c.get_put]; simp only; rw [d.get_put]
  put_get {bs p rest} h := by
    cases hc : c.get bs with
    | none => rw [hc] at h; cases h
    | some q =>
      obtain ⟨a, mid⟩ := q
      rw [hc] at h
      simp only at h
      cases hd : d.get mid with
      | none => rw [hd] at h; cases h
      | some q' =>
        obtain ⟨b, tail⟩ := q'
        rw [hd] at h
        obtain ⟨rfl, rfl⟩ := Prod.mk.inj (Option.some.inj h)
        rw [c.put_get hc, d.put_get hd, List.append_assoc]
  get_total {bs} h := by
    obtain ⟨a, ha⟩ := c.exists_get (show c.size ≤ bs.length by omega)
    obtain ⟨b, hb⟩ := d.exists_get
      (show d.size ≤ (bs.drop c.size).length by rw [List.length_drop]; omega)
    rw [ha]
    simp only
    rw [hb]
    rfl

/-- A codec read along a bijection of its values. -/
def map (c : Codec α) (e : α ≃ β) : Codec β where
  size := c.size
  put b := c.put (e.symm b)
  get bs := (c.get bs).map fun p => (e p.1, p.2)
  put_length b := c.put_length _
  get_put b rest := by rw [c.get_put, Option.map_some, e.apply_symm_apply]
  put_get {bs b rest} h := by
    obtain ⟨⟨a, tail⟩, ha, hb⟩ := Option.map_eq_some_iff.mp h
    obtain ⟨rfl, rfl⟩ := Prod.mk.inj hb
    rw [e.symm_apply_apply]
    exact c.put_get ha
  get_total {bs} h := by rw [Option.isSome_map]; exact c.get_total h

/-- The codec of a record with no fields. -/
def unit : Codec Unit where
  size := 0
  put _ := []
  get bs := some ((), bs)
  put_length _ := rfl
  get_put _ _ := rfl
  put_get {bs _ rest} h := by
    obtain ⟨-, rfl⟩ := Prod.mk.inj (Option.some.inj h)
    rfl
  get_total _ := rfl

/-- A fixed-length array, element after element. -/
def array (c : Codec α) : (n : ℕ) → Codec (Fin n → α)
  | 0 => unit.map (Equiv.ofUnique Unit (Fin 0 → α))
  | n + 1 => (c.pair (c.array n)).map (Fin.consEquiv fun _ => α)

end Codec

/-! ### Two's-complement integers -/

/-- A signed integer of `w` bits. -/
structure SInt (w : ℕ) where
  /-- The value. -/
  val : ℤ
  /-- The value is at least the type's minimum. -/
  lo : -2 ^ (w - 1) ≤ val
  /-- The value is at most the type's maximum. -/
  hi : val < 2 ^ (w - 1)
deriving DecidableEq

namespace SInt

variable {w : ℕ}

@[ext] theorem ext {a b : SInt w} (h : a.val = b.val) : a = b := by
  cases a; cases b; cases h; rfl

/-- The unsigned value with the same bit pattern. -/
def toBits (v : SInt w) : BitVec w := BitVec.ofInt w v.val

/-- The hand-written inverse: a pattern above the signed maximum is `-1` minus its
complement, everything else is read as it stands. -/
def ofBits (hw : 0 < w) (bits : BitVec w) : SInt w :=
  if h : bits.toNat ≤ 2 ^ (w - 1) - 1 then
    { val := bits.toNat
      lo := by
        have : (0 : ℤ) < 2 ^ (w - 1) := by positivity
        omega
      hi := by
        have h1 : 0 < 2 ^ (w - 1) := Nat.two_pow_pos _
        have h2 : bits.toNat < 2 ^ (w - 1) := by omega
        exact_mod_cast h2 }
  else
    { val := -1 - ((~~~bits).toNat : ℤ)
      lo := by
        have h1 := bits.isLt
        have h2 : 2 ^ w = 2 * 2 ^ (w - 1) := by
          rw [← Nat.pow_succ', Nat.succ_eq_add_one]
          congr
          omega
        have h3 : (~~~bits).toNat = 2 ^ w - 1 - bits.toNat := BitVec.toNat_not
        have h4 : (~~~bits).toNat + 1 ≤ 2 ^ (w - 1) := by omega
        have h5 : ((~~~bits).toNat : ℤ) + 1 ≤ 2 ^ (w - 1) := by exact_mod_cast h4
        omega
      hi := by
        have : (0 : ℤ) < 2 ^ (w - 1) := by positivity
        omega }

/-- The bit pattern read as a signed number is Lean's own two's complement. -/
theorem ofBits_val (hw : 0 < w) (bits : BitVec w) : (ofBits hw bits).val = bits.toInt := by
  have h1 := bits.isLt
  have h2 : 2 ^ w = 2 * 2 ^ (w - 1) := by rw [← Nat.pow_succ', Nat.succ_eq_add_one]; congr; omega
  have h3 : (~~~bits).toNat = 2 ^ w - 1 - bits.toNat := BitVec.toNat_not
  have hpos : 0 < 2 ^ (w - 1) := Nat.two_pow_pos _
  unfold ofBits
  split
  · next h =>
    rw [BitVec.toInt_eq_toNat_of_lt (by omega)]
  · next h =>
    have hcast : ((2 ^ w : ℕ) : ℤ) = 2 ^ w := by push_cast; rfl
    rw [BitVec.toInt_eq_toNat_cond, if_neg (by omega)]
    simp only
    omega

theorem ofBits_toBits (hw : 0 < w) (v : SInt w) : ofBits hw v.toBits = v := by
  apply SInt.ext
  rw [ofBits_val, toBits]
  exact BitVec.toInt_ofInt_eq_self hw v.lo v.hi

theorem toBits_ofBits (hw : 0 < w) (bits : BitVec w) : (ofBits hw bits).toBits = bits := by
  rw [toBits, ofBits_val, BitVec.ofInt_toInt]

/-- Bit patterns and signed integers are in bijection. -/
def bitsEquiv (hw : 0 < w) : BitVec w ≃ SInt w where
  toFun := ofBits hw
  invFun := toBits
  left_inv := toBits_ofBits hw
  right_inv := ofBits_toBits hw

end SInt

/-- Big-endian two's-complement integers of `n` bytes. -/
def Codec.sint (n : ℕ) {w : ℕ} (hw : w = 8 * n) (hpos : 0 < w) : Codec (SInt w) :=
  (Codec.uint n hw).map (SInt.bitsEquiv hpos)

end Framework
