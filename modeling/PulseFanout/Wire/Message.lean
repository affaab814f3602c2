import PulseFanout.Framework.Codec

/-!
# Native messages (`message.h`) and their wire fields (`wire.h`, `fields`)

The three records a ring carries, with the fields of the C++ structs in declaration
order. Unsigned fields are bit vectors of their width, signed ones (`int64_t` and
`char`) are `SInt`, and a `double` is its 64-bit pattern: the codec copies the pattern
and never computes with it.

`wire::fields` lists the members of a record once, for the writer and the reader
alike. Here that list is a `Codec`: each record is a header followed by a tuple of the
remaining members, and `Message` packages the tuple's codec with the bijection between
the tuple and the record.

The structs are `alignas(64)` and every member is naturally aligned, so the native size
of a record is its field bytes rounded up to 64.
-/

namespace PulseFanout

open Framework

/-! ### Primitive fields -/

/-- A `double`, as its IEEE 754 bit pattern. -/
structure Double where
  /-- The 64 bits `memcpy` moves. -/
  bits : BitVec 64
deriving DecidableEq

/-- A `char`, signed on the targets the harness builds for. -/
abbrev CChar := SInt 8

namespace Scalar

/-- `uint8_t` -/
def u8 : Codec (BitVec 8) := Codec.uint 1 rfl

/-- `uint16_t` -/
def u16 : Codec (BitVec 16) := Codec.uint 2 rfl

/-- `uint32_t` -/
def u32 : Codec (BitVec 32) := Codec.uint 4 rfl

/-- `uint64_t` -/
def u64 : Codec (BitVec 64) := Codec.uint 8 rfl

/-- `int64_t` -/
def i64 : Codec (SInt 64) := Codec.sint 8 rfl (by decide)

/-- `char` -/
def char : Codec CChar := Codec.sint 1 rfl (by decide)

/-- `double` -/
def double : Codec Double :=
  u64.map ⟨Double.mk, Double.bits, fun _ => rfl, fun _ => rfl⟩

end Scalar

namespace Msg

/-! ### The header -/

/-- `kVersion` -/
def kVersion : BitVec 16 := 2

/-- `msg::Type` -/
inductive MsgType
  | trade
  | bbo
  | orderBook
deriving DecidableEq, Repr

/-- The enumerator's value. -/
def MsgType.code : MsgType → BitVec 16
  | .trade => 1
  | .bbo => 2
  | .orderBook => 3

/-- `static_cast<Type>`, with the values no enumerator has left out. -/
def MsgType.ofCode (c : BitVec 16) : Option MsgType :=
  if c = 1 then some .trade
  else if c = 2 then some .bbo
  else if c = 3 then some .orderBook
  else none

@[simp] theorem MsgType.ofCode_code (t : MsgType) : MsgType.ofCode t.code = some t := by
  cases t <;> rfl

theorem MsgType.code_of_ofCode {c : BitVec 16} {t : MsgType} (h : MsgType.ofCode c = some t) :
    c = t.code := by
  unfold MsgType.ofCode at h
  split at h
  · cases h; assumption
  · split at h
    · cases h; assumption
    · split at h
      · cases h; assumption
      · cases h

/-- `msg::Header` -/
structure Header where
  seqId : BitVec 64
  sendTsNs : BitVec 64
  type : BitVec 16
  version : BitVec 16
  bodyLen : BitVec 32
  streamId : BitVec 64
  streamEpoch : BitVec 64
deriving DecidableEq

open Scalar in
/-- `fields` of the header. -/
def Header.fields : Codec Header :=
  (u64.pair <| u64.pair <| u16.pair <| u16.pair <| u32.pair <| u64.pair u64).map
    { toFun := fun (seqId, sendTsNs, type, version, bodyLen, streamId, streamEpoch) =>
        { seqId, sendTsNs, type, version, bodyLen, streamId, streamEpoch }
      invFun := fun h =>
        (h.seqId, h.sendTsNs, h.type, h.version, h.bodyLen, h.streamId, h.streamEpoch)
      left_inv := fun _ => rfl
      right_inv := fun _ => rfl }

/-- `sizeof(Header)`: five 8-byte words, no padding. -/
def Header.sizeof : ℕ := Header.fields.size

/-! ### The records -/

/-- `alignas(64)`: a size rounded up to the cache line. -/
def alignas64 (n : ℕ) : ℕ := (n + 63) / 64 * 64

/-- A record that starts with a header. `Body` is the tuple of its other members and
`record` the bijection between header-and-tuple and the record. -/
class Message (T : Type) where
  /-- The enumerator for the record. -/
  type : MsgType
  /-- The members after the header. -/
  Body : Type
  /-- `fields` of the members after the header. -/
  body : Codec Body
  /-- A record is its header and its other members. -/
  record : Header × Body ≃ T

namespace Message

variable {T : Type} [Message T]

/-- `fields` of a record: the header, then the other members in declaration order. -/
def fields (T : Type) [Message T] : Codec T := (Header.fields.pair (body (T := T))).map record

/-- `sizeof(T)` -/
def sizeof (T : Type) [Message T] : ℕ := alignas64 (fields T).size

/-- `m.header` -/
def header (m : T) : Header := (record.symm m).1

/-- The record with `m.header.body_len` assigned. -/
def setBodyLen (m : T) (len : BitVec 32) : T :=
  record ({ header m with bodyLen := len }, (record.symm m).2)

@[simp] theorem header_setBodyLen (m : T) (len : BitVec 32) :
    header (setBodyLen m len) = { header m with bodyLen := len } := by
  simp [header, setBodyLen]

@[simp] theorem setBodyLen_setBodyLen (m : T) (a b : BitVec 32) :
    setBodyLen (setBodyLen m a) b = setBodyLen m b := by
  simp [header, setBodyLen]

/-- Assigning the length a record already has changes nothing. -/
theorem setBodyLen_self {m : T} {len : BitVec 32} (h : (header m).bodyLen = len) :
    setBodyLen m len = m := by
  subst h
  exact record.apply_symm_apply m

/-- A record's bytes start with its header's. -/
theorem fields_put (m : T) :
    (fields T).put m = Header.fields.put (header m) ++ (body (T := T)).put (record.symm m).2 := rfl

/-- Reading a record reads its header first. -/
theorem header_get {bs rest : List Byte} {m : T} (h : (fields T).get bs = some (m, rest)) :
    Header.fields.get bs = some (header m, bs.drop Header.sizeof) := by
  have hbs := (fields T).put_get h
  rw [fields_put, List.append_assoc] at hbs
  have hget := Header.fields.get_put (header m) ((body (T := T)).put (record.symm m).2 ++ rest)
  rw [← hbs] at hget
  rw [hget, Header.fields.get_rest hget]
  rfl

end Message

/-- `msg::Trade` -/
structure Trade where
  header : Header
  symbol : Fin 16 → CChar
  venue : Fin 16 → CChar
  baseCurrency : Fin 8 → CChar
  quoteCurrency : Fin 8 → CChar
  tradeId : BitVec 64
  buyerOrderId : BitVec 64
  sellerOrderId : BitVec 64
  exchangeTsNs : BitVec 64
  matchEngineTsNs : BitVec 64
  price : Double
  quantity : Double
  notional : Double
  priceTicks : SInt 64
  quantityLots : SInt 64
  tickDirection : BitVec 32
  aggressorSide : BitVec 8
  isBlockTrade : BitVec 8
  isRpi : BitVec 8
  isLiquidation : BitVec 8
  flags : BitVec 8
  reserved : Fin 19 → BitVec 8

open Scalar in
instance : Message Trade where
  type := .trade
  Body := _
  body :=
    (char.array 16).pair <| (char.array 16).pair <| (char.array 8).pair <| (char.array 8).pair <|
    u64.pair <| u64.pair <| u64.pair <| u64.pair <| u64.pair <|
    double.pair <| double.pair <| double.pair <| i64.pair <| i64.pair <| u32.pair <|
    u8.pair <| u8.pair <| u8.pair <| u8.pair <| u8.pair (u8.array 19)
  record :=
    { toFun := fun (header, symbol, venue, baseCurrency, quoteCurrency, tradeId, buyerOrderId,
          sellerOrderId, exchangeTsNs, matchEngineTsNs, price, quantity, notional, priceTicks,
          quantityLots, tickDirection, aggressorSide, isBlockTrade, isRpi, isLiquidation, flags,
          reserved) =>
        { header, symbol, venue, baseCurrency, quoteCurrency, tradeId, buyerOrderId,
          sellerOrderId, exchangeTsNs, matchEngineTsNs, price, quantity, notional, priceTicks,
          quantityLots, tickDirection, aggressorSide, isBlockTrade, isRpi, isLiquidation, flags,
          reserved }
      invFun := fun m =>
        (m.header, m.symbol, m.venue, m.baseCurrency, m.quoteCurrency, m.tradeId, m.buyerOrderId,
          m.sellerOrderId, m.exchangeTsNs, m.matchEngineTsNs, m.price, m.quantity, m.notional,
          m.priceTicks, m.quantityLots, m.tickDirection, m.aggressorSide, m.isBlockTrade, m.isRpi,
          m.isLiquidation, m.flags, m.reserved)
      left_inv := fun _ => rfl
      right_inv := fun _ => rfl }

/-- `msg::Bbo` -/
structure Bbo where
  header : Header
  symbol : Fin 16 → CChar
  venue : Fin 16 → CChar
  updateId : BitVec 64
  exchangeTsNs : BitVec 64
  matchEngineTsNs : BitVec 64
  bidPrice : Double
  bidSize : Double
  askPrice : Double
  askSize : Double
  bidPriceTicks : SInt 64
  askPriceTicks : SInt 64
  bidSizeLots : SInt 64
  askSizeLots : SInt 64
  bidOrderCount : BitVec 32
  askOrderCount : BitVec 32
  flags : BitVec 8
  reserved : Fin 23 → BitVec 8

open Scalar in
instance : Message Bbo where
  type := .bbo
  Body := _
  body :=
    (char.array 16).pair <| (char.array 16).pair <| u64.pair <| u64.pair <| u64.pair <|
    double.pair <| double.pair <| double.pair <| double.pair <|
    i64.pair <| i64.pair <| i64.pair <| i64.pair <| u32.pair <| u32.pair <|
    u8.pair (u8.array 23)
  record :=
    { toFun := fun (header, symbol, venue, updateId, exchangeTsNs, matchEngineTsNs, bidPrice,
          bidSize, askPrice, askSize, bidPriceTicks, askPriceTicks, bidSizeLots, askSizeLots,
          bidOrderCount, askOrderCount, flags, reserved) =>
        { header, symbol, venue, updateId, exchangeTsNs, matchEngineTsNs, bidPrice, bidSize,
          askPrice, askSize, bidPriceTicks, askPriceTicks, bidSizeLots, askSizeLots,
          bidOrderCount, askOrderCount, flags, reserved }
      invFun := fun m =>
        (m.header, m.symbol, m.venue, m.updateId, m.exchangeTsNs, m.matchEngineTsNs, m.bidPrice,
          m.bidSize, m.askPrice, m.askSize, m.bidPriceTicks, m.askPriceTicks, m.bidSizeLots,
          m.askSizeLots, m.bidOrderCount, m.askOrderCount, m.flags, m.reserved)
      left_inv := fun _ => rfl
      right_inv := fun _ => rfl }

/-- `msg::Level` -/
structure Level where
  price : Double
  size : Double
  priceTicks : SInt 64
  sizeLots : SInt 64
  orderCount : BitVec 32
  reserved : BitVec 32

open Scalar in
/-- `fields` of a book level. -/
def Level.fields : Codec Level :=
  (double.pair <| double.pair <| i64.pair <| i64.pair <| u32.pair u32).map
    { toFun := fun (price, size, priceTicks, sizeLots, orderCount, reserved) =>
        { price, size, priceTicks, sizeLots, orderCount, reserved }
      invFun := fun l =>
        (l.price, l.size, l.priceTicks, l.sizeLots, l.orderCount, l.reserved)
      left_inv := fun _ => rfl
      right_inv := fun _ => rfl }

/-- `kBookDepth` -/
def kBookDepth : ℕ := 5

/-- `msg::OrderBook` -/
structure OrderBook where
  header : Header
  symbol : Fin 16 → CChar
  venue : Fin 16 → CChar
  updateId : BitVec 64
  prevUpdateId : BitVec 64
  exchangeTsNs : BitVec 64
  matchEngineTsNs : BitVec 64
  bids : Fin kBookDepth → Level
  asks : Fin kBookDepth → Level
  checksum : BitVec 32
  isSnapshot : BitVec 8
  flags : BitVec 8
  reserved : Fin 26 → BitVec 8

open Scalar in
instance : Message OrderBook where
  type := .orderBook
  Body := _
  body :=
    (char.array 16).pair <| (char.array 16).pair <| u64.pair <| u64.pair <| u64.pair <|
    u64.pair <| (Level.fields.array kBookDepth).pair <| (Level.fields.array kBookDepth).pair <|
    u32.pair <| u8.pair <| u8.pair (u8.array 26)
  record :=
    { toFun := fun (header, symbol, venue, updateId, prevUpdateId, exchangeTsNs, matchEngineTsNs,
          bids, asks, checksum, isSnapshot, flags, reserved) =>
        { header, symbol, venue, updateId, prevUpdateId, exchangeTsNs, matchEngineTsNs, bids, asks,
          checksum, isSnapshot, flags, reserved }
      invFun := fun m =>
        (m.header, m.symbol, m.venue, m.updateId, m.prevUpdateId, m.exchangeTsNs,
          m.matchEngineTsNs, m.bids, m.asks, m.checksum, m.isSnapshot, m.flags, m.reserved)
      left_inv := fun _ => rfl
      right_inv := fun _ => rfl }

/-! ### Sizes -/

@[simp] theorem Header.sizeof_eq : Header.sizeof = 40 := rfl

/-- `kMaxFrame` -/
def kMaxFrame : ℕ := Message.sizeof OrderBook

/-! ### Validation -/

/-- The native size of each record. -/
def MsgType.sizeof : MsgType → ℕ
  | .trade => Message.sizeof Trade
  | .bbo => Message.sizeof Bbo
  | .orderBook => Message.sizeof OrderBook

theorem MsgType.sizeof_bounds (t : MsgType) : Header.sizeof ≤ t.sizeof ∧ t.sizeof ≤ kMaxFrame := by
  cases t <;> decide

theorem MsgType.sizeof_ne_zero (t : MsgType) : t.sizeof ≠ 0 := by
  have h := t.sizeof_bounds.1
  rw [Header.sizeof_eq] at h
  omega

/-- The three native sizes are different, so a length determines the record. -/
theorem MsgType.sizeof_injective : Function.Injective MsgType.sizeof := by
  intro a b h
  cases a <;> cases b <;> first | rfl | exact absurd h (by decide)

/-- `expected_size`, which is 0 for a value no enumerator has. -/
def expectedSize (type : BitVec 16) : ℕ :=
  match MsgType.ofCode type with
  | some t => t.sizeof
  | none => 0

theorem expectedSize_eq_iff (c : BitVec 16) (t : MsgType) :
    expectedSize c = t.sizeof ↔ c = t.code := by
  constructor
  · intro h
    unfold expectedSize at h
    split at h
    · next t' ht => rw [MsgType.code_of_ofCode ht, MsgType.sizeof_injective h]
    · exact absurd h.symm t.sizeof_ne_zero
  · rintro rfl
    rw [expectedSize, MsgType.ofCode_code]

/-- `validate_frame`: it reads the header at the front of the buffer and nothing else. -/
def validateFrame (header : Header) (len : ℕ) : Bool :=
  if len < Header.sizeof || kMaxFrame < len then false
  else if header.version != kVersion || header.bodyLen.toNat != len then false
  else expectedSize header.type == len

/-- A native frame in a buffer: the record its bytes hold. -/
inductive Native
  | trade (m : Trade)
  | bbo (m : Bbo)
  | orderBook (m : OrderBook)

namespace Native

/-- The header at the front of the buffer. -/
def header : Native → Header
  | trade m => m.header
  | bbo m => m.header
  | orderBook m => m.header

/-- The record's type. -/
def type : Native → MsgType
  | trade _ => .trade
  | bbo _ => .bbo
  | orderBook _ => .orderBook

/-- The number of bytes the record occupies. -/
def size (m : Native) : ℕ := m.type.sizeof

end Native

/-- A record type that a buffer can hold. -/
class NativeRecord (T : Type) extends Message T where
  /-- The buffer holding the record. -/
  native : T → Native
  /-- Its header is the record's. -/
  native_header : ∀ m, (native m).header = Message.header m
  /-- Its type is the record's. -/
  native_type : ∀ m, (native m).type = type
  /-- Its size is the record's. -/
  type_sizeof : type.sizeof = Message.sizeof T

instance : NativeRecord Trade where
  native := .trade
  native_header _ := rfl
  native_type _ := rfl
  type_sizeof := rfl

instance : NativeRecord Bbo where
  native := .bbo
  native_header _ := rfl
  native_type _ := rfl
  type_sizeof := rfl

instance : NativeRecord OrderBook where
  native := .orderBook
  native_header _ := rfl
  native_type _ := rfl
  type_sizeof := rfl

/-- `validate_frame` on a whole record: the version, the length and the type must be the
record's own, the three native sizes being different. -/
theorem validateFrame_iff (m : Native) :
    validateFrame m.header m.size = true ↔
      m.header.version = kVersion ∧ m.header.bodyLen.toNat = m.size ∧
        m.header.type = m.type.code := by
  have hsize : Header.sizeof ≤ m.size ∧ m.size ≤ kMaxFrame := m.type.sizeof_bounds
  have hexp : expectedSize m.header.type = m.size ↔ m.header.type = m.type.code :=
    expectedSize_eq_iff _ _
  unfold validateFrame
  rw [if_neg (by simp only [Bool.or_eq_true, decide_eq_true_eq]; omega)]
  by_cases hv : m.header.version = kVersion
  · by_cases hl : m.header.bodyLen.toNat = m.size
    · simp [hv, hl, hexp]
    · simp [hl]
  · simp [hv]

end Msg
end PulseFanout
