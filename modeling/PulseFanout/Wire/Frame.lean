import PulseFanout.Wire.Message

/-!
# The PUL3 wire codec (`wire.h`, `encode` and `decode`)

`encode` turns a native record into its wire form: the magic, then the fields in
declaration order with `body_len` replaced by the wire length. `decode` accepts a byte
string, restores the native length and writes the record to an output buffer.

The two are inverse on what each accepts (`decode_encode`, `decode_inv`), `decode`
accepts a byte string exactly when `Acceptable` says so, a condition on the bytes alone
(`decode_accepts_iff`), and a rejected byte string leaves the output as it was
(`decode_reject`).

Everything about one record type is a fact about `encodeAs` and `decodeAs`, proved once
for an arbitrary `Message`. What `decode` adds is the header it reads first, and
`Message.header_get` says that this is the header the record starts with.
-/

namespace PulseFanout
namespace Wire

open Framework Msg

/-- `wire::magic`, the bytes `PUL3`. -/
def magic : BitVec 32 := 0x50554c33

/-- `wire::max_frame` -/
def maxFrame : ℕ := 1024

/-! ### Encoding -/

/-- The magic and the fields, as `w(tag, m)` writes them. -/
def write {T : Type} [Message T] (m : T) : List Byte :=
  Scalar.u32.put magic ++ (Message.fields T).put m

/-- `encode_as`: a first pass measures the frame, a second writes it with that length. -/
def encodeAs {T : Type} [Message T] (m : T) : List Byte :=
  let bytes := write (Message.setBodyLen m 0)
  write (Message.setBodyLen m (BitVec.ofNat 32 bytes.length))

/-- `encode`. A validated record has its own type's code, so the last branch is the
`switch` falling through. -/
def encode (m : Native) : Except String (List Byte) :=
  if !validateFrame m.header m.size then .error "invalid native message"
  else
    match MsgType.ofCode m.header.type, m with
    | some .trade, .trade t => .ok (encodeAs t)
    | some .bbo, .bbo b => .ok (encodeAs b)
    | some .orderBook, .orderBook b => .ok (encodeAs b)
    | _, _ => .error "unknown message type"

/-! ### Decoding -/

/-- What `decode` writes through its pointers: the frame buffer, which holds whatever the
caller left there until a record is copied in, and `native_len`. -/
structure Out where
  frame : Option Native
  nativeLen : ℕ

/-- `decode_as`. A short input is the `length_error` that `decode` catches. -/
def decodeAs (T : Type) [NativeRecord T] (data : List Byte) (out : Out) : Bool × Out :=
  match (Message.fields T).get (data.drop 4) with
  | none => (false, out)
  | some (m, rest) =>
    -- `r.pos != len`: some of the input was not read
    if rest ≠ [] ∨ (Message.header m).bodyLen.toNat ≠ data.length ∨
        (Message.header m).version ≠ kVersion then (false, out)
    else
      (true,
        { frame := some
            (NativeRecord.native (Message.setBodyLen m (BitVec.ofNat 32 (Message.sizeof T))))
          nativeLen := Message.sizeof T })

/-- The `switch` of `decode`. -/
def decodeType (type : BitVec 16) (data : List Byte) (out : Out) : Bool × Out :=
  match MsgType.ofCode type with
  | some .trade => decodeAs Trade data out
  | some .bbo => decodeAs Bbo data out
  | some .orderBook => decodeAs OrderBook data out
  | none => (false, out)

/-- `decode` -/
def decode (data : List Byte) (out : Out) : Bool × Out :=
  if data.length < 44 ∨ maxFrame < data.length then (false, out)
  else
    match (Scalar.u32.pair Header.fields).get data with
    | none => (false, out)
    | some ((tag, h), _) =>
      if tag ≠ magic ∨ h.version ≠ kVersion ∨ h.bodyLen.toNat ≠ data.length then (false, out)
      else decodeType h.type data out

/-! ### One record type -/

section Record

variable {T : Type} [NativeRecord T]

@[simp] theorem write_length (m : T) : (write m).length = 4 + (Message.fields T).size := by
  rw [write, List.length_append, Scalar.u32.put_length, (Message.fields T).put_length]
  rfl

theorem write_drop (m : T) : (write m).drop 4 = (Message.fields T).put m := by
  have hlen : (Scalar.u32.put magic).length = 4 := Scalar.u32.put_length magic
  rw [write, List.drop_left' hlen]

theorem encodeAs_eq (m : T) :
    encodeAs m =
      write (Message.setBodyLen m (BitVec.ofNat 32 (4 + (Message.fields T).size))) := by
  rw [encodeAs, write_length]

/-- The bytes after the magic, read as the header. -/
theorem get_write (m : T) :
    ∃ rest, (Scalar.u32.pair Header.fields).get (write m) =
      some ((magic, Message.header m), rest) := by
  refine ⟨(Message.body (T := T)).put (Message.record.symm m).2, ?_⟩
  rw [write, Message.fields_put, ← List.append_assoc]
  exact (Scalar.u32.pair Header.fields).get_put (magic, Message.header m) _

/-- What `decode_as` accepts: exactly one record of type `T` after the magic, whose header
carries the length of the input and the version. -/
theorem decodeAs_eq_true {data : List Byte} {out out' : Out} :
    decodeAs T data out = (true, out') ↔
      ∃ m : T, data.drop 4 = (Message.fields T).put m ∧
        (Message.header m).bodyLen.toNat = data.length ∧
        (Message.header m).version = kVersion ∧
        out' =
          { frame := some
              (NativeRecord.native (Message.setBodyLen m (BitVec.ofNat 32 (Message.sizeof T))))
            nativeLen := Message.sizeof T } := by
  constructor
  · intro h
    unfold decodeAs at h
    split at h
    · exact absurd (congrArg Prod.fst h) (by simp)
    · next m rest hget =>
      split at h
      · exact absurd (congrArg Prod.fst h) (by simp)
      · next hc =>
        push Not at hc
        obtain ⟨rfl, hlen, hver⟩ := hc
        refine ⟨m, ?_, hlen, hver, (Prod.mk.inj h).2.symm⟩
        rw [(Message.fields T).put_get hget, List.append_nil]
  · rintro ⟨m, hput, hlen, hver, rfl⟩
    have hget := (Message.fields T).get_put m []
    rw [List.append_nil, ← hput] at hget
    rw [decodeAs, hget]
    simp [hlen, hver]

theorem decodeAs_reject {data : List Byte} {out : Out} (h : (decodeAs T data out).1 = false) :
    (decodeAs T data out).2 = out := by
  unfold decodeAs at h ⊢
  split
  · rfl
  · next m rest hget =>
    rw [hget] at h
    simp only at h ⊢
    split
    · rfl
    · next hc => rw [if_neg hc] at h; cases h

end Record

/-! ### The header `decode` reads first -/

/-- The number in `n` bytes at offset `off`. -/
def numberAt (b : List Byte) (off n : ℕ) : ℕ := ofBytes ((b.drop off).take n)

/-- Reading an unsigned field reads the number in its bytes. -/
theorem uint_get_toNat {n w : ℕ} {hw : w = 8 * n} {b rest : List Byte} {v : BitVec w}
    (h : (Codec.uint n hw).get b = some (v, rest)) : v.toNat = ofBytes (b.take n) := by
  have hb := (Codec.uint n hw).put_get h
  have hlen : (beBytes n v.toNat).length = n := beBytes_length n _
  have hpow : (256 : ℕ) ^ n = 2 ^ w := by rw [hw, Nat.pow_mul]
  rw [hb]
  change v.toNat = ofBytes ((beBytes n v.toNat ++ rest).take n)
  rw [List.take_left' hlen, ofBytes_beBytes, hpow, Nat.mod_eq_of_lt v.isLt]

/-- Splitting a read of two fields. -/
theorem pair_get {α β : Type} {c : Codec α} {d : Codec β} {b rest : List Byte} {p : α × β}
    (h : (c.pair d).get b = some (p, rest)) :
    c.get b = some (p.1, b.drop c.size) ∧ d.get (b.drop c.size) = some (p.2, rest) := by
  have hb := (c.pair d).put_get h
  change b = (c.put p.1 ++ d.put p.2) ++ rest at hb
  rw [List.append_assoc] at hb
  have hdrop : b.drop c.size = d.put p.2 ++ rest := by
    rw [hb, List.drop_left' (c.put_length p.1)]
  constructor
  · rw [hdrop, hb]
    exact c.get_put _ _
  · rw [hdrop]
    exact d.get_put _ _

/-- The header `decode` reads is spelled by the bytes at fixed offsets. -/
theorem header_numberAt {b rest : List Byte} {tag : BitVec 32} {h : Header}
    (hget : (Scalar.u32.pair Header.fields).get b = some ((tag, h), rest)) :
    tag.toNat = numberAt b 0 4 ∧ h.type.toNat = numberAt b 20 2 ∧
      h.version.toNat = numberAt b 22 2 ∧ h.bodyLen.toNat = numberAt b 24 4 := by
  obtain ⟨htag, hhdr⟩ := pair_get hget
  obtain ⟨⟨t, tl⟩, htuple, heq⟩ := Option.map_eq_some_iff.mp hhdr
  obtain ⟨rfl, rfl⟩ := Prod.mk.inj heq
  obtain ⟨-, h1⟩ := pair_get htuple
  obtain ⟨-, h2⟩ := pair_get h1
  obtain ⟨htype, h3⟩ := pair_get h2
  obtain ⟨hver, h4⟩ := pair_get h3
  obtain ⟨hlen, -⟩ := pair_get h4
  refine ⟨?_, ?_, ?_, ?_⟩
  · exact uint_get_toNat htag
  · rw [List.drop_drop, List.drop_drop] at htype
    exact uint_get_toNat htype
  · rw [List.drop_drop, List.drop_drop, List.drop_drop] at hver
    exact uint_get_toNat hver
  · rw [List.drop_drop, List.drop_drop, List.drop_drop, List.drop_drop] at hlen
    exact uint_get_toNat hlen

/-- The wire length of each record. -/
def wireSize : MsgType → ℕ
  | .trade => 200
  | .bbo => 196
  | .orderBook => 540

/-- A byte string is a PUL3 frame: it starts with the magic, has the version, the code of a
record, its own length in the length field, and the length that record has. -/
def Acceptable (b : List Byte) : Prop :=
  b.take 4 = [0x50, 0x55, 0x4c, 0x33] ∧ numberAt b 22 2 = 2 ∧ numberAt b 24 4 = b.length ∧
    ∃ t : MsgType, numberAt b 20 2 = t.code.toNat ∧ b.length = wireSize t

/-- The magic as a number and as bytes. -/
theorem magic_iff {b : List Byte} (hlen : 4 ≤ b.length) :
    numberAt b 0 4 = magic.toNat ↔ b.take 4 = [0x50, 0x55, 0x4c, 0x33] := by
  have htake : (b.take 4).length = 4 := by rw [List.length_take]; omega
  rw [numberAt, List.drop_zero]
  constructor
  · intro h
    have hbytes := beBytes_ofBytes (b.take 4)
    rw [htake, h] at hbytes
    rw [← hbytes]
    decide
  · intro h
    rw [h]
    decide

/-! ### Both directions -/

/-- The bytes `encode` returns for a valid record. -/
def bytes : Native → List Byte
  | .trade t => encodeAs t
  | .bbo b => encodeAs b
  | .orderBook b => encodeAs b

theorem encode_eq (m : Native) (h : validateFrame m.header m.size = true) :
    encode m = .ok (bytes m) := by
  have htype := ((validateFrame_iff m).mp h).2.2
  unfold encode
  simp only [h, htype, MsgType.ofCode_code, Bool.not_true, Bool.false_eq_true, if_false]
  cases m <;> simp only [Native.type, bytes]

theorem bytes_length (m : Native) : (bytes m).length = wireSize m.type := by
  cases m
  all_goals
    rw [bytes, encodeAs_eq, write_length]
    rfl

/-- Once `decode` has read an acceptable header it runs `decode_as` of the header's type. -/
theorem decode_eq {data rest : List Byte} {h : Header} {out : Out}
    (hmin : 44 ≤ data.length) (hmax : data.length ≤ maxFrame)
    (hget : (Scalar.u32.pair Header.fields).get data = some ((magic, h), rest))
    (hver : h.version = kVersion) (hlen : h.bodyLen.toNat = data.length) :
    decode data out = decodeType h.type data out := by
  rw [decode, if_neg (by omega), hget]
  simp only [hver, hlen, ne_eq, not_true_eq_false, or_self, if_false]

theorem wireSize_bounds (t : MsgType) : 44 ≤ wireSize t ∧ wireSize t ≤ maxFrame := by
  cases t <;> decide

section Record

variable {T : Type} [NativeRecord T]

/-- The header `decode` reads is the header of the record `decode_as` reads. -/
theorem header_eq {data rest rest' : List Byte} {tag : BitVec 32} {h : Header} {m : T}
    (hget : (Scalar.u32.pair Header.fields).get data = some ((tag, h), rest))
    (hm : (Message.fields T).get (data.drop 4) = some (m, rest')) : Message.header m = h := by
  have h1 := Message.header_get hm
  have h2 : Header.fields.get (data.drop 4) = some (h, rest) := (pair_get hget).2
  rw [h2] at h1
  exact (Prod.mk.inj (Option.some.inj h1)).1.symm

/-- Decoding what `encode_as` wrote returns the record. -/
theorem decode_encodeAs (m : T) (out : Out)
    (hsel : ∀ data, decodeType (Message.header m).type data out = decodeAs T data out)
    (hmin : 44 ≤ 4 + (Message.fields T).size) (hmax : 4 + (Message.fields T).size ≤ maxFrame)
    (hver : (Message.header m).version = kVersion)
    (hlen : (Message.header m).bodyLen = BitVec.ofNat 32 (Message.sizeof T)) :
    decode (encodeAs m) out =
      (true, { frame := some (NativeRecord.native m), nativeLen := Message.sizeof T }) := by
  have hfit : 4 + (Message.fields T).size < 2 ^ 32 := lt_of_le_of_lt hmax (by decide)
  have hbytes : (encodeAs m).length = 4 + (Message.fields T).size := by
    rw [encodeAs_eq, write_length]
  have hwire : (BitVec.ofNat 32 (4 + (Message.fields T).size)).toNat = (encodeAs m).length := by
    rw [hbytes, BitVec.toNat_ofNat, Nat.mod_eq_of_lt hfit]
  obtain ⟨rest, hget⟩ := get_write
    (Message.setBodyLen m (BitVec.ofNat 32 (4 + (Message.fields T).size)))
  rw [← encodeAs_eq, Message.header_setBodyLen] at hget
  rw [decode_eq (by omega) (by omega) hget hver hwire, hsel, decodeAs_eq_true]
  refine ⟨Message.setBodyLen m (BitVec.ofNat 32 (4 + (Message.fields T).size)), ?_, ?_, ?_, ?_⟩
  · rw [encodeAs_eq, write_drop]
  · rw [Message.header_setBodyLen]; exact hwire
  · rw [Message.header_setBodyLen, hver]
  · rw [Message.setBodyLen_setBodyLen, Message.setBodyLen_self hlen]

/-- An input of the right length whose header is in order is accepted by `decode_as`. -/
theorem decodeAs_accepts {data rest : List Byte} {h : Header} (out : Out)
    (hget : (Scalar.u32.pair Header.fields).get data = some ((magic, h), rest))
    (hver : h.version = kVersion) (hlen : h.bodyLen.toNat = data.length)
    (hsize : data.length = 4 + (Message.fields T).size) :
    (decodeAs T data out).1 = true := by
  have hrest : (data.drop 4).length = (Message.fields T).size := by
    rw [List.length_drop]; omega
  obtain ⟨m, hm⟩ := (Message.fields T).exists_get hrest.ge
  rw [List.drop_of_length_le hrest.le] at hm
  have hh := header_eq hget hm
  rw [decodeAs_eq_true.mpr ⟨m, ((Message.fields T).put_get hm).trans (List.append_nil _),
    by rw [hh, hlen], by rw [hh, hver], rfl⟩]

/-- What `decode_as` returns is a valid record of the header's type, and encoding it writes
the input again. -/
theorem decodeAs_inv {data rest : List Byte} {h : Header} {out out' : Out}
    (hget : (Scalar.u32.pair Header.fields).get data = some ((magic, h), rest))
    (hmin : 44 ≤ data.length) (htype : h.type = (Message.type T).code)
    (hdec : decodeAs T data out = (true, out')) :
    ∃ m : T, out' = { frame := some (NativeRecord.native m)
                      nativeLen := (NativeRecord.native m).size } ∧
      validateFrame (NativeRecord.native m).header (NativeRecord.native m).size = true ∧
      encodeAs m = data ∧ data.length = 4 + (Message.fields T).size := by
  obtain ⟨m, hput, hlen, hver, rfl⟩ := decodeAs_eq_true.mp hdec
  have hm := (Message.fields T).get_put m []
  rw [List.append_nil, ← hput] at hm
  have hh := header_eq hget hm
  have hmagic := (magic_iff (by omega)).mp (header_numberAt hget).1.symm
  -- the input is the magic and the record, byte for byte
  have hdata : data = write m := by
    have h4 : Scalar.u32.put magic = data.take 4 := by rw [hmagic]; decide
    rw [write, h4, ← hput, List.take_append_drop]
  have hsize : data.length = 4 + (Message.fields T).size := by rw [hdata, write_length]
  have hbody : (Message.header m).bodyLen = BitVec.ofNat 32 (4 + (Message.fields T).size) := by
    rw [← hsize, ← hlen, BitVec.ofNat_toNat, BitVec.setWidth_eq]
  have hnative : ∀ m' : T, (NativeRecord.native m').size = Message.sizeof T := fun m' => by
    rw [Native.size, NativeRecord.native_type, NativeRecord.type_sizeof]
  refine ⟨Message.setBodyLen m (BitVec.ofNat 32 (Message.sizeof T)), ?_, ?_, ?_, hsize⟩
  · rw [hnative]
  · have hfit : Message.sizeof T < 2 ^ 32 := by
      rw [← NativeRecord.type_sizeof]
      exact lt_of_le_of_lt (Message.type T).sizeof_bounds.2 (by decide)
    rw [validateFrame_iff, NativeRecord.native_header, NativeRecord.native_type, hnative,
      Message.header_setBodyLen]
    refine ⟨hver, ?_, ?_⟩
    · rw [BitVec.toNat_ofNat, Nat.mod_eq_of_lt hfit]
    · rw [hh]; exact htype
  · rw [encodeAs_eq, Message.setBodyLen_setBodyLen, Message.setBodyLen_self hbody, ← hdata]

end Record

/-- **Encode, then decode.** A valid record comes back field for field, with its native
length. -/
theorem decode_encode (m : Native) (h : validateFrame m.header m.size = true) (out : Out) :
    decode (bytes m) out = (true, { frame := some m, nativeLen := m.size }) := by
  obtain ⟨hver, hlen, htype⟩ := (validateFrame_iff m).mp h
  have hbody : m.header.bodyLen = BitVec.ofNat 32 m.size := by
    rw [← hlen, BitVec.ofNat_toNat, BitVec.setWidth_eq]
  have hsel : ∀ data, decodeType m.header.type data out = decodeType m.type.code data out :=
    fun data => by rw [htype]
  cases m with
  | trade t => exact decode_encodeAs t out hsel (by decide) (by decide) hver hbody
  | bbo b => exact decode_encodeAs b out hsel (by decide) (by decide) hver hbody
  | orderBook b => exact decode_encodeAs b out hsel (by decide) (by decide) hver hbody

/-- Everything `decode` checked before it accepted. -/
theorem decode_inv {data : List Byte} {out out' : Out} (hdec : decode data out = (true, out')) :
    ∃ m : Native, out' = { frame := some m, nativeLen := m.size } ∧
      validateFrame m.header m.size = true ∧ bytes m = data ∧ data.length = wireSize m.type ∧
      ∃ h rest, (Scalar.u32.pair Header.fields).get data = some ((magic, h), rest) ∧
        h.version = kVersion ∧ h.bodyLen.toNat = data.length ∧ h.type = m.type.code := by
  unfold decode at hdec
  split at hdec
  · exact absurd (congrArg Prod.fst hdec) (by simp)
  · next hbounds =>
    split at hdec
    · exact absurd (congrArg Prod.fst hdec) (by simp)
    · next tag h rest hget =>
      split at hdec
      · exact absurd (congrArg Prod.fst hdec) (by simp)
      · next hc =>
        push Not at hc
        obtain ⟨rfl, hver, hlen⟩ := hc
        unfold decodeType at hdec
        split at hdec
        · next ht =>
          have hcode := MsgType.code_of_ofCode ht
          obtain ⟨m, rfl, hval, henc, hsize⟩ := decodeAs_inv hget (by omega) hcode hdec
          exact ⟨.trade m, rfl, hval, henc, hsize, h, rest, hget, hver, hlen, hcode⟩
        · next ht =>
          have hcode := MsgType.code_of_ofCode ht
          obtain ⟨m, rfl, hval, henc, hsize⟩ := decodeAs_inv hget (by omega) hcode hdec
          exact ⟨.bbo m, rfl, hval, henc, hsize, h, rest, hget, hver, hlen, hcode⟩
        · next ht =>
          have hcode := MsgType.code_of_ofCode ht
          obtain ⟨m, rfl, hval, henc, hsize⟩ := decodeAs_inv hget (by omega) hcode hdec
          exact ⟨.orderBook m, rfl, hval, henc, hsize, h, rest, hget, hver, hlen, hcode⟩
        · exact absurd (congrArg Prod.fst hdec) (by simp)

/-- **Exact acceptance.** -/
theorem decode_accepts_iff (b : List Byte) (out : Out) :
    (decode b out).1 = true ↔ Acceptable b := by
  constructor
  · intro h
    have hdec : decode b out = (true, (decode b out).2) := by rw [← h]
    obtain ⟨m, -, -, -, hsize, hdr, rest, hget, hver, hlen, htype⟩ := decode_inv hdec
    -- the fields as numbers at their offsets, as the specification reads them
    obtain ⟨ntag, ntype, nver, nlen⟩ := header_numberAt hget
    have hmin := (wireSize_bounds m.type).1
    refine ⟨(magic_iff (by omega)).mp ntag.symm, ?_, ?_, m.type, ?_, hsize⟩
    · rw [← nver, hver]; rfl
    · rw [← nlen, hlen]
    · rw [← ntype, htype]
  · rintro ⟨hmagic, hver, hlen, t, htype, hsize⟩
    obtain ⟨hmin, hmax⟩ := wireSize_bounds t
    obtain ⟨⟨tag, hdr⟩, hget⟩ := (Scalar.u32.pair Header.fields).exists_get
      (show (Scalar.u32.pair Header.fields).size ≤ b.length by
        rw [show (Scalar.u32.pair Header.fields).size = 44 from rfl]; omega)
    obtain ⟨ntag, ntype, nver, nlen⟩ := header_numberAt hget
    obtain rfl : tag = magic :=
      BitVec.eq_of_toNat_eq (ntag.trans ((magic_iff (by omega)).mpr hmagic))
    have hv : hdr.version = kVersion := BitVec.eq_of_toNat_eq (nver.trans hver)
    have ht : hdr.type = t.code := BitVec.eq_of_toNat_eq (ntype.trans htype)
    have hl : hdr.bodyLen.toNat = b.length := nlen.trans hlen
    rw [decode_eq (by omega) (by omega) hget hv hl, decodeType, ht, MsgType.ofCode_code]
    cases t with
    | trade => exact decodeAs_accepts out hget hv hl hsize
    | bbo => exact decodeAs_accepts out hget hv hl hsize
    | orderBook => exact decodeAs_accepts out hget hv hl hsize

/-- A rejected byte string leaves the output buffer and length as they were. -/
theorem decode_reject {b : List Byte} {out : Out} (h : (decode b out).1 = false) :
    (decode b out).2 = out := by
  unfold decode at h ⊢
  split
  · rfl
  · next hbounds =>
    rw [if_neg hbounds] at h
    split
    · rfl
    · next tag hdr rest hget =>
      rw [hget] at h
      simp only at h
      split
      · rfl
      · next hc =>
        rw [if_neg hc] at h
        unfold decodeType at h ⊢
        split
        · next ht => rw [ht] at h; exact decodeAs_reject h
        · next ht => rw [ht] at h; exact decodeAs_reject h
        · next ht => rw [ht] at h; exact decodeAs_reject h
        · rfl

/-- **The wire codec.** A valid record survives the round trip with the native length in
`body_len`; a byte string is accepted exactly when it is `Acceptable`, and then encoding
the decoded record gives it back; a rejection touches neither the output buffer nor
`native_len`. -/
theorem codec_round_trip_exact :
    (∀ (m : Native) (out : Out), validateFrame m.header m.size = true →
      m.header.bodyLen.toNat = m.size ∧
      ∃ b, encode m = .ok b ∧
        decode b out = (true, { frame := some m, nativeLen := m.size })) ∧
    (∀ (b : List Byte) (out : Out), (decode b out).1 = true ↔ Acceptable b) ∧
    (∀ (b : List Byte) (out out' : Out), decode b out = (true, out') →
      ∃ m : Native, out' = { frame := some m, nativeLen := m.size } ∧ encode m = .ok b) ∧
    (∀ (b : List Byte) (out : Out), (decode b out).1 = false → (decode b out).2 = out) := by
  refine ⟨fun m out h => ?_, decode_accepts_iff, fun b out out' h => ?_, fun b out => decode_reject⟩
  · exact ⟨((validateFrame_iff m).mp h).2.1, bytes m, encode_eq m h, decode_encode m h out⟩
  · obtain ⟨m, hout, hval, hbytes, -⟩ := decode_inv h
    exact ⟨m, hout, by rw [encode_eq m hval, hbytes]⟩

/-- The trade of the harness's golden-bytes test: a negative tick count, the least `int64_t`
as lot count and 1.0 as price. -/
def goldenTrade : Trade where
  header :=
    { seqId := 0x0102030405060708, sendTsNs := 9, type := 1, version := kVersion, bodyLen := 256
      streamId := 11, streamEpoch := 12 }
  symbol i := match i.val with
    | 0 => ⟨66, by decide, by decide⟩
    | 1 => ⟨84, by decide, by decide⟩
    | 2 => ⟨67, by decide, by decide⟩
    | _ => ⟨0, by decide, by decide⟩
  venue _ := ⟨0, by decide, by decide⟩
  baseCurrency _ := ⟨0, by decide, by decide⟩
  quoteCurrency _ := ⟨0, by decide, by decide⟩
  tradeId := 0
  buyerOrderId := 0
  sellerOrderId := 0
  exchangeTsNs := 0
  matchEngineTsNs := 0
  price := ⟨0x3ff0000000000000⟩
  quantity := ⟨0⟩
  notional := ⟨0⟩
  priceTicks := ⟨-123, by decide, by decide⟩
  quantityLots := ⟨-2 ^ 63, by decide, by decide⟩
  tickDirection := 0
  aggressorSide := 0
  isBlockTrade := 0
  isRpi := 0
  isLiquidation := 0
  flags := 0
  reserved _ := 0

theorem golden_round_trip :
    ∃ b, encode (.trade goldenTrade) = .ok b ∧
      decode b { frame := none, nativeLen := 0 } =
        (true, { frame := some (.trade goldenTrade), nativeLen := 256 }) :=
  (codec_round_trip_exact.1 (.trade goldenTrade) { frame := none, nativeLen := 0 }
    (by decide)).2

end Wire
end PulseFanout
