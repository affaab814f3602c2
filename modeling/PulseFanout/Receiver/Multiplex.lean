import PulseFanout.Dedupe.Window
import PulseFanout.Fec.Decoder
import PulseFanout.Framework.Registry
import PulseFanout.Wire.Message

/-!
# Stream identities (`multiplex.h`)

Every datagram on the network starts with twenty bytes: the tag `PFS3`, a stream number and
an epoch. The two numbers are the identity of a stream; the receiver has one FEC decoder and
one dedupe window for each identity it has admitted, at most `limit` of them, and drops none.

`unwrap` writes the identity it read through its reference argument before it looks at the
tag, so a datagram it rejects still changes `current_key` (`Multiplex.unwrap` returns the key
in either case). `unwrap_eq_some` says what it accepts: exactly what `wrap` makes of an
identity of two nonzero numbers.
-/

namespace PulseFanout
namespace Multiplex

open Framework

/-- `multiplex::Key` -/
structure Key where
  stream : BitVec 64 := 0
  epoch : BitVec 64 := 0
deriving DecidableEq, Repr

/-- `magic`, the letters `PFS3`. -/
def magic : BitVec 32 := 0x50465333

/-- `header_size` -/
def headerSize : ℕ := 20

/-- The header: tag, stream, epoch. -/
def header : Codec (BitVec 32 × BitVec 64 × BitVec 64) :=
  Scalar.u32.pair (Scalar.u64.pair Scalar.u64)

/-- `wrap` -/
def wrap (key : Key) (data : List Byte) : List Byte :=
  header.put (magic, key.stream, key.epoch) ++ data

/-- `unwrap`: the payload if the header is accepted, and `key` as it is afterwards. -/
def unwrap (data : List Byte) (key : Key) : Option (List Byte) × Key :=
  if data.length < headerSize then (none, key)
  else
    match header.get data with
    | none => (none, key)
    | some ((tag, stream, epoch), _) =>
      if tag ≠ magic ∨ stream = 0 ∨ epoch = 0 then (none, ⟨stream, epoch⟩)
      else (some (data.drop headerSize), ⟨stream, epoch⟩)

theorem wrap_length (key : Key) (data : List Byte) :
    (wrap key data).length = headerSize + data.length := by
  rw [wrap, List.length_append, header.put_length]
  rfl

/-- **What `unwrap` accepts.** -/
theorem unwrap_eq_some {data payload : List Byte} {key key' : Key} :
    unwrap data key = (some payload, key') ↔
      data = wrap key' payload ∧ key'.stream ≠ 0 ∧ key'.epoch ≠ 0 := by
  constructor
  · intro h
    unfold unwrap at h
    split at h
    · cases h
    split at h
    · cases h
    · next tag stream epoch rest hget =>
      split at h
      · cases h
      · next hgood =>
        push Not at hgood
        obtain ⟨rfl, hstream, hepoch⟩ := hgood
        obtain ⟨hpayload, rfl⟩ := Prod.mk.inj h
        refine ⟨?_, hstream, hepoch⟩
        -- the checks leave magic, stream and epoch, which is what `wrap` writes
        rw [wrap, ← Option.some.inj hpayload, ← show rest = data.drop headerSize from
          header.get_rest hget]
        exact header.put_get hget
  · rintro ⟨rfl, hstream, hepoch⟩
    have hlong : ¬ (wrap key' payload).length < headerSize := by
      rw [wrap_length]
      omega
    have hget := header.get_put (magic, key'.stream, key'.epoch) payload
    rw [← wrap] at hget
    have hrest : (wrap key' payload).drop headerSize = payload := (header.get_rest hget).symm
    rw [unwrap, if_neg hlong, hget]
    dsimp only
    rw [if_neg, hrest]
    rintro (h | h | h)
    exacts [h rfl, hstream h, hepoch h]

/-! ### Streams -/

variable {w : Dedupe.WindowSize}

/-- `multiplex::Stream` -/
structure Stream (w : Dedupe.WindowSize) where
  decoder : Fec.Decoder
  dedupe : Dedupe.Window w
  lastSeq : ℕ

/-- The constructor. -/
def Stream.new (generations : ℕ) : Stream w where
  decoder := Fec.Decoder.new generations
  dedupe := Dedupe.Window.fresh w
  lastSeq := 0

/-- `multiplex::Streams`. A `std::map` iterates in the order of its keys; here they stand in
the order of admission, since every loop over them treats each stream by itself. -/
abbrev Streams (w : Dedupe.WindowSize) (limit : ℕ) := Registry Key (Stream w) limit

/-- `Streams::get`: the stream of `key`, admitted now if it is new and there is room. -/
def Streams.get {limit : ℕ} (S : Streams w limit) (generations : ℕ) (key : Key) :
    Option (Stream w × Streams w limit) :=
  S.getOrAdd key (Stream.new generations)

end Multiplex
end PulseFanout
