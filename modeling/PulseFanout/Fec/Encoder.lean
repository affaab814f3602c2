import Mathlib.Algebra.BigOperators.Group.Finset.Basic
import PulseFanout.Fec.Solver
import PulseFanout.Wire.Frame

/-!
# Shards and the encoder (`fec.h`, `Envelope` to `Encoder`)

A generation is a handful of frames that are sent as data shards, in the clear, followed
by parity shards. Each frame is protected with its length in front and zeros behind it, so
that all blocks of a generation are equally long, and parity shard `row` is the sum of the
blocks weighted by `coefficient row`.

An `Encoder` carries what its constructor and `add` check, so every value of the type is an
encoder the program can have. `Origin` is a closed generation, and `Origin.shard` lists the
datagrams `close` returns (`Encoder.close_eq`).

Results used by the decoder's proofs: an envelope reads back as it was written
(`readEnvelope_append`), a protected frame gives its length and its bytes back
(`getU16_protectedFrame`, `protectedFrame_payload`), and every byte of a parity payload is
one linear combination over the field (`Origin.of_payload`).
-/

namespace PulseFanout
namespace Fec

open Framework Scalar

/-- `kMagic` -/
def kMagic : BitVec 32 := 0x46454332

/-- `kMaxGeneration` -/
def kMaxGeneration : ℕ := 128

/-! ### Envelopes -/

/-- `fec::Envelope` -/
structure Envelope where
  magic : BitVec 32
  genId : BitVec 32
  index : BitVec 16
  k : BitVec 16
  parityCount : BitVec 16
  protectedLen : BitVec 16
  closeReason : BitVec 8
deriving DecidableEq, Repr

/-- The fields in the order both directions run through them. -/
def Envelope.fields : Codec Envelope :=
  (u32.pair <| u32.pair <| u16.pair <| u16.pair <| u16.pair <| u16.pair u8).map
    { toFun := fun (magic, genId, index, k, parityCount, protectedLen, closeReason) =>
        { magic, genId, index, k, parityCount, protectedLen, closeReason }
      invFun := fun h =>
        (h.magic, h.genId, h.index, h.k, h.parityCount, h.protectedLen, h.closeReason)
      left_inv := fun _ => rfl
      right_inv := fun _ => rfl }

/-- `kEnvelopeSize` -/
def kEnvelopeSize : ℕ := 17

theorem Envelope.fields_size : Envelope.fields.size = kEnvelopeSize := rfl

/-- `write_envelope` -/
def writeEnvelope (h : Envelope) : List Byte := Envelope.fields.put h

/-- `read_envelope`, on data whose length was checked. -/
def readEnvelope (data : List Byte) : Envelope :=
  match Envelope.fields.get data with
  | some (h, _) => h
  | none => ⟨0, 0, 0, 0, 0, 0, 0⟩

@[simp] theorem writeEnvelope_length (h : Envelope) : (writeEnvelope h).length = kEnvelopeSize :=
  Envelope.fields.put_length h

@[simp] theorem readEnvelope_append (h : Envelope) (payload : List Byte) :
    readEnvelope (writeEnvelope h ++ payload) = h := by
  rw [readEnvelope, writeEnvelope, Envelope.fields.get_put]

/-! ### Protected frames -/

/-- `put_u16`: the two bytes it writes, low byte first. -/
def putU16 (value : ℕ) : List Byte := [BitVec.ofNat 8 value, BitVec.ofNat 8 (value >>> 8)]

/-- `get_u16` -/
def getU16 (data : List Byte) : ℕ :=
  (data.getD 0 0#8).toNat ||| ((data.getD 1 0#8).toNat <<< 8)

/-- `protected_frame`: the frame with its length in front, in a zeroed vector of
`padded_len + 2` bytes. -/
def protectedFrame (frame : List Byte) (paddedLen : ℕ) : List Byte :=
  putU16 frame.length ++ frame ++ List.replicate (paddedLen - frame.length) 0#8

theorem protectedFrame_length {frame : List Byte} {paddedLen : ℕ} (h : frame.length ≤ paddedLen) :
    (protectedFrame frame paddedLen).length = paddedLen + 2 := by
  simp only [protectedFrame, putU16, List.length_append, List.length_cons, List.length_nil,
    List.length_replicate]
  omega

theorem getU16_protectedFrame {frame : List Byte} (paddedLen : ℕ) (h : frame.length < 65536) :
    getU16 (protectedFrame frame paddedLen) = frame.length := by
  have hlow : (BitVec.ofNat 8 frame.length).toNat = frame.length % 2 ^ 8 := BitVec.toNat_ofNat ..
  have hhigh : (BitVec.ofNat 8 (frame.length >>> 8)).toNat = frame.length / 2 ^ 8 := by
    rw [BitVec.toNat_ofNat, Nat.shiftRight_eq_div_pow, Nat.mod_eq_of_lt]
    omega
  have hread : getU16 (protectedFrame frame paddedLen) =
      frame.length % 2 ^ 8 ||| ((frame.length / 2 ^ 8) <<< 8) := by
    rw [← hlow, ← hhigh]
    rfl
  rw [hread, Nat.or_comm, ← Nat.shiftLeft_add_eq_or_of_lt (Nat.mod_lt _ (by decide)),
    Nat.shiftLeft_eq]
  omega

theorem protectedFrame_payload (frame : List Byte) (paddedLen : ℕ) :
    ((protectedFrame frame paddedLen).drop 2).take frame.length = frame := by
  have hlen : (putU16 frame.length).length = 2 := rfl
  rw [protectedFrame, List.append_assoc, List.drop_left' hlen, List.take_left' rfl]

/-- Padding adds zeros only. -/
theorem protectedFrame_getD (frame : List Byte) (a b j : ℕ) :
    (protectedFrame frame a).getD j 0#8 = (protectedFrame frame b).getD j 0#8 := by
  simp only [protectedFrame, List.getD_eq_getElem?_getD, List.getElem?_append,
    List.getElem?_replicate]
  split
  · rfl
  · split <;> split <;> simp

/-! ### The encoder -/

/-- `data_datagram` -/
def dataDatagram (genId : BitVec 32) (index k : ℕ) (frame : List Byte) : List Byte :=
  writeEnvelope ⟨kMagic, genId, BitVec.ofNat 16 index, BitVec.ofNat 16 k, 0,
    BitVec.ofNat 16 frame.length, 0⟩ ++ frame

/-- `fec::BuiltGeneration` -/
structure BuiltGeneration where
  data : List (List Byte)
  parity : List Byte
  extraParity : List (List Byte)
deriving DecidableEq, Repr

/-- All shards, data first. -/
def BuiltGeneration.shards (built : BuiltGeneration) : List (List Byte) :=
  built.data ++ built.parity :: built.extraParity

/-- `fec::Encoder`, with what its constructor and `add` check. -/
structure Encoder where
  k : ℕ
  parityCount : ℕ
  maxLen : ℕ
  frames : List (List Byte)
  /-- The constructor's first check. -/
  k_range : 1 ≤ k ∧ k ≤ kMaxGeneration
  /-- The constructor's second check. -/
  parity_range : 1 ≤ parityCount ∧ parityCount ≤ 16
  /-- `add` refuses a frame when the generation is full. -/
  frames_le : frames.length ≤ k
  /-- `add` refuses empty and oversized frames. -/
  frame_range : ∀ f ∈ frames, 1 ≤ f.length ∧ f.length ≤ Wire.maxFrame
  /-- `max_len_` is the length of the longest frame. -/
  maxLen_eq : maxLen = frames.foldl (fun m f => max m f.length) 0

namespace Encoder

/-- An encoder without frames. -/
def fresh (k parityCount : ℕ) (k_range : 1 ≤ k ∧ k ≤ kMaxGeneration)
    (parity_range : 1 ≤ parityCount ∧ parityCount ≤ 16) : Encoder where
  k := k
  parityCount := parityCount
  maxLen := 0
  frames := []
  k_range := k_range
  parity_range := parity_range
  frames_le := Nat.zero_le _
  frame_range := fun _ hf => absurd hf List.not_mem_nil
  maxLen_eq := rfl

/-- The constructor. -/
def new (k parityCount : ℕ) : Except String Encoder :=
  if h : (1 ≤ k ∧ k ≤ kMaxGeneration) ∧ (1 ≤ parityCount ∧ parityCount ≤ 16) then
    .ok (.fresh k parityCount h.1 h.2)
  else .error "FEC requires k=1..128, parity=1..16"

/-- `add` -/
def add (E : Encoder) (frame : List Byte) : Bool × Encoder :=
  if h : frame.length = 0 ∨ frame.length > Wire.maxFrame ∨ E.frames.length = E.k then (false, E)
  else
    (true, { E with
      frames := E.frames ++ [frame]
      maxLen := if frame.length > E.maxLen then frame.length else E.maxLen
      frames_le := by
        have := E.frames_le
        rw [List.length_append, List.length_singleton]
        omega
      frame_range := by
        intro f hf
        rcases List.mem_append.mp hf with hf | hf
        · exact E.frame_range f hf
        · rw [List.mem_singleton.mp hf]
          omega
      maxLen_eq := by
        rw [List.foldl_append, ← E.maxLen_eq, List.foldl_cons, List.foldl_nil]
        split <;> omega })

/-- `empty` -/
def empty (E : Encoder) : Bool := E.frames.isEmpty

/-- `size` -/
def size (E : Encoder) : ℕ := E.frames.length

/-- `full` -/
def full (E : Encoder) : Bool := E.frames.length == E.k

/-- The payload of parity shard zero: plain exclusive or. -/
def parityZero (frames : List (List Byte)) (maxLen : ℕ) : List Byte :=
  frames.foldl (fun parity f => List.zipWith (· ^^^ ·) parity (protectedFrame f maxLen))
    (List.replicate (maxLen + 2) 0#8)

/-- The payload of parity shard `row`, for the rows after zero. -/
def parityRow (row : ℕ) (frames : List (List Byte)) (maxLen : ℕ) : List Byte :=
  frames.zipIdx.foldl
    (fun shard (f, col) => addRow (coefficient row col) shard (protectedFrame f maxLen))
    (List.replicate (maxLen + 2) 0#8)

/-- The datagram of a parity shard. -/
def parityDatagram (genId : BitVec 32) (row n parityCount : ℕ) (reason : BitVec 8)
    (payload : List Byte) : List Byte :=
  writeEnvelope ⟨kMagic, genId, BitVec.ofNat 16 (n + row), BitVec.ofNat 16 n,
    BitVec.ofNat 16 parityCount, BitVec.ofNat 16 payload.length, reason⟩ ++ payload

/-- `frames_.clear(); max_len_ = 0` -/
def reset (E : Encoder) : Encoder :=
  { E with
    frames := []
    maxLen := 0
    frames_le := Nat.zero_le _
    frame_range := fun _ hf => absurd hf List.not_mem_nil
    maxLen_eq := rfl }

/-- `close`: the shards, and the encoder ready for the next generation. -/
def close (E : Encoder) (genId : BitVec 32) (reason : BitVec 8) :
    Except String (BuiltGeneration × Encoder) :=
  if E.empty then .error "empty FEC generation"
  else
    let n := E.frames.length
    let parity := parityZero E.frames E.maxLen
    .ok
      ({ data := E.frames.zipIdx.map fun (f, i) => dataDatagram genId i E.k f
         parity := parityDatagram genId 0 n E.parityCount reason parity
         extraParity := (List.range' 1 (E.parityCount - 1)).map fun row =>
           parityDatagram genId row n E.parityCount reason (parityRow row E.frames E.maxLen) },
       E.reset)

/-- Collect the frames of one generation and close it. -/
def build (k parityCount : ℕ) (frames : List (List Byte)) (genId : BitVec 32)
    (reason : BitVec 8) : Except String BuiltGeneration := do
  let E ← new k parityCount
  let E ← frames.foldlM
    (fun E f => if (E.add f).1 then .ok (E.add f).2 else .error "frame refused") E
  let (built, _) ← E.close genId reason
  return built

/-! ### Facts every encoder has -/

theorem length_le_maxLen (E : Encoder) {f : List Byte} (hf : f ∈ E.frames) :
    f.length ≤ E.maxLen := by
  rw [E.maxLen_eq]
  generalize E.frames = frames at hf
  induction frames using List.reverseRecOn with
  | nil => cases hf
  | append_singleton frames g ih =>
    rw [List.foldl_append, List.foldl_cons, List.foldl_nil]
    rcases List.mem_append.mp hf with hf | hf
    · exact (ih hf).trans (le_max_left _ _)
    · rw [List.mem_singleton.mp hf]
      exact le_max_right _ _

theorem maxLen_le (E : Encoder) : E.maxLen ≤ Wire.maxFrame := by
  have hrange := E.frame_range
  rw [E.maxLen_eq]
  generalize E.frames = frames at hrange
  induction frames using List.reverseRecOn with
  | nil => exact Nat.zero_le _
  | append_singleton frames g ih =>
    rw [List.foldl_append, List.foldl_cons, List.foldl_nil]
    exact max_le (ih fun f hf => hrange f (List.mem_append_left _ hf))
      (hrange g (List.mem_append_right _ (List.mem_singleton_self g))).2

/-- What a successful `add` changes. -/
theorem add_ok {E : Encoder} {f : List Byte} (h : (E.add f).1 = true) :
    (E.add f).2.k = E.k ∧ (E.add f).2.parityCount = E.parityCount ∧
      (E.add f).2.frames = E.frames ++ [f] := by
  unfold add at h ⊢
  split at h
  · cases h
  · next hno =>
    rw [dif_neg hno]
    exact ⟨rfl, rfl, rfl⟩

/-- What adding frames one after the other changes. -/
theorem addAll_ok {E E' : Encoder} {frames : List (List Byte)}
    (h : frames.foldlM (fun E f =>
      if (E.add f).1 then .ok (E.add f).2 else (.error "frame refused" : Except String Encoder))
      E = .ok E') :
    E'.k = E.k ∧ E'.parityCount = E.parityCount ∧ E'.frames = E.frames ++ frames := by
  induction frames generalizing E with
  | nil =>
    cases h
    exact ⟨rfl, rfl, (List.append_nil _).symm⟩
  | cons f frames ih =>
    rw [List.foldlM_cons] at h
    cases hadd : (E.add f).1 with
    | false =>
      rw [hadd] at h
      cases h
    | true =>
      rw [hadd] at h
      obtain ⟨hk, hp, hframes⟩ := add_ok hadd
      obtain ⟨hk', hp', hframes'⟩ := ih h
      refine ⟨hk'.trans hk, hp'.trans hp, ?_⟩
      rw [hframes', hframes, List.append_assoc, List.singleton_append]

theorem addAll (E : Encoder) (frames : List (List Byte))
    (hroom : E.frames.length + frames.length ≤ E.k)
    (hrange : ∀ f ∈ frames, 1 ≤ f.length ∧ f.length ≤ Wire.maxFrame) :
    ∃ E' : Encoder, frames.foldlM (fun E f =>
        if (E.add f).1 then .ok (E.add f).2 else (.error "frame refused" : Except String Encoder))
      E = .ok E' := by
  induction frames generalizing E with
  | nil => exact ⟨E, rfl⟩
  | cons f frames ih =>
    have hf := hrange f List.mem_cons_self
    rw [List.length_cons] at hroom
    have hok : (E.add f).1 = true := by rw [add, dif_neg (by omega)]
    obtain ⟨hk, -, hframes⟩ := add_ok hok
    rw [List.foldlM_cons, hok]
    exact ih (E.add f).2
      (by rw [hframes, hk, List.length_append, List.length_singleton]; omega)
      (fun g hg => hrange g (List.mem_cons_of_mem _ hg))

end Encoder

/-! ### Closed generations -/

/-- A generation as `close` is called on it. -/
structure Origin where
  encoder : Encoder
  genId : BitVec 32
  reason : BitVec 8
  /-- `close` refuses an empty generation. -/
  nonempty : encoder.frames ≠ []

namespace Origin

/-- How many frames it has. -/
def n (O : Origin) : ℕ := O.encoder.frames.length

/-- How many parity shards it has. -/
def p (O : Origin) : ℕ := O.encoder.parityCount

/-- Frame `i`. -/
def frame (O : Origin) (i : ℕ) : List Byte := O.encoder.frames.getD i []

/-- Frame `i`, protected and padded. -/
def block (O : Origin) (i : ℕ) : List Byte := protectedFrame (O.frame i) O.encoder.maxLen

/-- The common length of blocks and parity payloads. -/
def width (O : Origin) : ℕ := O.encoder.maxLen + 2

/-- The payload of parity shard `row`. -/
def payload (O : Origin) (row : ℕ) : List Byte :=
  if row = 0 then Encoder.parityZero O.encoder.frames O.encoder.maxLen
  else Encoder.parityRow row O.encoder.frames O.encoder.maxLen

/-- Data shard `i`. -/
def dataShard (O : Origin) (i : ℕ) : List Byte :=
  dataDatagram O.genId i O.encoder.k (O.frame i)

/-- Parity shard `row`. -/
def parityShard (O : Origin) (row : ℕ) : List Byte :=
  Encoder.parityDatagram O.genId row O.n O.p O.reason (O.payload row)

/-- Shard `x`: the data shards, then the parity shards. -/
def shard (O : Origin) (x : ℕ) : List Byte :=
  if x < O.n then O.dataShard x else O.parityShard (x - O.n)

/-- The envelope of data shard `i`. -/
def dataEnvelope (O : Origin) (i : ℕ) : Envelope :=
  ⟨kMagic, O.genId, BitVec.ofNat 16 i, BitVec.ofNat 16 O.encoder.k, 0,
    BitVec.ofNat 16 (O.frame i).length, 0⟩

/-- The envelope of parity shard `row`. -/
def parityEnvelope (O : Origin) (row : ℕ) : Envelope :=
  ⟨kMagic, O.genId, BitVec.ofNat 16 (O.n + row), BitVec.ofNat 16 O.n, BitVec.ofNat 16 O.p,
    BitVec.ofNat 16 (O.payload row).length, O.reason⟩

theorem dataShard_eq (O : Origin) (i : ℕ) :
    O.dataShard i = writeEnvelope (O.dataEnvelope i) ++ O.frame i := rfl

theorem parityShard_eq (O : Origin) (row : ℕ) :
    O.parityShard row = writeEnvelope (O.parityEnvelope row) ++ O.payload row := rfl

theorem shard_genId (O : Origin) (x : ℕ) : (readEnvelope (O.shard x)).genId = O.genId := by
  rw [shard]
  split
  · rw [dataShard_eq, readEnvelope_append]
    rfl
  · rw [parityShard_eq, readEnvelope_append]
    rfl

theorem toNat_ofNat_small {v : ℕ} (h : v < 65536) : (BitVec.ofNat 16 v).toNat = v := by
  rw [BitVec.toNat_ofNat, Nat.mod_eq_of_lt h]

theorem n_pos (O : Origin) : 0 < O.n := List.length_pos_of_ne_nil O.nonempty

theorem n_le (O : Origin) : O.n ≤ O.encoder.k := O.encoder.frames_le

theorem k_le (O : Origin) : O.encoder.k ≤ 128 := O.encoder.k_range.2

theorem p_pos (O : Origin) : 0 < O.p := O.encoder.parity_range.1

theorem p_le (O : Origin) : O.p ≤ 16 := O.encoder.parity_range.2

theorem frame_mem (O : Origin) {i : ℕ} (hi : i < O.n) : O.frame i ∈ O.encoder.frames := by
  rw [frame, List.getD_eq_getElem _ _ hi]
  exact List.getElem_mem _

theorem frame_range (O : Origin) {i : ℕ} (hi : i < O.n) :
    1 ≤ (O.frame i).length ∧ (O.frame i).length ≤ Wire.maxFrame :=
  O.encoder.frame_range _ (O.frame_mem hi)

theorem frame_le_maxLen (O : Origin) {i : ℕ} (hi : i < O.n) :
    (O.frame i).length ≤ O.encoder.maxLen :=
  O.encoder.length_le_maxLen (O.frame_mem hi)

theorem width_le (O : Origin) : O.width ≤ Wire.maxFrame + 2 := by
  have := O.encoder.maxLen_le
  rw [width]
  omega

theorem block_length (O : Origin) {i : ℕ} (hi : i < O.n) : (O.block i).length = O.width :=
  protectedFrame_length (O.frame_le_maxLen hi)

/-- What `close` returns. -/
def built (O : Origin) : BuiltGeneration where
  data := (List.range O.n).map O.dataShard
  parity := O.parityShard 0
  extraParity := (List.range' 1 (O.p - 1)).map O.parityShard

theorem close_eq (O : Origin) :
    O.encoder.close O.genId O.reason = .ok (O.built, O.encoder.reset) := by
  have hne : O.encoder.empty = false := by
    rw [Encoder.empty, List.isEmpty_eq_false_iff]
    exact O.nonempty
  have hdata : (List.range O.n).map O.dataShard = O.encoder.frames.zipIdx.map
      (fun (f, i) => dataDatagram O.genId i O.encoder.k f) := by
    refine List.ext_getElem (by simp [n]) fun i hi hi' => ?_
    rw [List.length_map, List.length_range] at hi
    simp [dataShard, frame, List.getElem?_eq_getElem (show i < O.encoder.frames.length from hi)]
  have hextra : (List.range' 1 (O.p - 1)).map O.parityShard =
      (List.range' 1 (O.p - 1)).map (fun row =>
        Encoder.parityDatagram O.genId row O.n O.p O.reason
          (Encoder.parityRow row O.encoder.frames O.encoder.maxLen)) := by
    refine List.map_congr_left fun row hrow => ?_
    have hpos : row ≠ 0 := by
      have := (List.mem_range'_1.mp hrow).1
      omega
    rw [parityShard, payload, if_neg hpos]
  rw [Encoder.close, hne, built, hdata, hextra]
  rfl

theorem built_parity (O : Origin) :
    O.built.parity :: O.built.extraParity = (List.range O.p).map O.parityShard := by
  have hp := O.p_pos
  have hrange : List.range O.p = 0 :: List.range' 1 (O.p - 1) := by
    rw [List.range_eq_range', show O.p = O.p - 1 + 1 by omega, List.range'_succ,
      Nat.add_sub_cancel]
  rw [hrange, List.map_cons]
  rfl

theorem built_shards (O : Origin) : O.built.shards = (List.range (O.n + O.p)).map O.shard := by
  have hdata : (List.range O.n).map O.dataShard = (List.range O.n).map O.shard :=
    List.map_congr_left fun i hi => by rw [shard, if_pos (List.mem_range.mp hi)]
  have hparity : (List.range O.p).map O.parityShard =
      (List.range O.p).map (O.shard ∘ fun row => O.n + row) :=
    List.map_congr_left fun row _ => by simp [shard]
  rw [BuiltGeneration.shards, built_parity, built, hdata, hparity, List.range_add, List.map_append,
    List.map_map]

theorem shards_length (O : Origin) : O.built.shards.length = O.n + O.p := by
  rw [built_shards, List.length_map, List.length_range]

/-- What a successful `build` returns are the shards of a closed generation. -/
theorem build_ok {k parityCount : ℕ} {frames : List (List Byte)} {genId : BitVec 32}
    {reason : BitVec 8} {built : BuiltGeneration}
    (h : Encoder.build k parityCount frames genId reason = .ok built) :
    ∃ O : Origin, O.encoder.k = k ∧ O.p = parityCount ∧ O.encoder.frames = frames ∧
      O.genId = genId ∧ O.reason = reason ∧ O.built = built := by
  simp only [Encoder.build, bind, Except.bind] at h
  cases hnew : Encoder.new k parityCount with
  | error msg => rw [hnew] at h; cases h
  | ok E =>
    have hE : E.k = k ∧ E.parityCount = parityCount ∧ E.frames = [] := by
      unfold Encoder.new at hnew
      split at hnew
      · cases hnew; exact ⟨rfl, rfl, rfl⟩
      · cases hnew
    rw [hnew] at h
    dsimp only at h
    split at h
    · cases h
    · next E' hadd =>
      obtain ⟨hk, hp, hframes⟩ := Encoder.addAll_ok hadd
      rw [hE.2.2, List.nil_append] at hframes
      -- `close` throws on an empty generation
      by_cases hne : E'.frames = []
      · rw [Encoder.close, Encoder.empty, hne] at h
        cases h
      · have hclose := close_eq ⟨E', genId, reason, hne⟩
        rw [hclose] at h
        exact ⟨⟨E', genId, reason, hne⟩, hk.trans hE.1, hp.trans hE.2.1, hframes, rfl, rfl,
          Except.ok.inj h⟩

/-- `build` succeeds on everything the encoder takes. -/
theorem exists_build {k parityCount : ℕ} {frames : List (List Byte)} (hk : 1 ≤ k ∧ k ≤ 128)
    (hp : 1 ≤ parityCount ∧ parityCount ≤ 16) (hn : 1 ≤ frames.length ∧ frames.length ≤ k)
    (hrange : ∀ f ∈ frames, 1 ≤ f.length ∧ f.length ≤ Wire.maxFrame) (genId : BitVec 32)
    (reason : BitVec 8) :
    ∃ built, Encoder.build k parityCount frames genId reason = .ok built := by
  obtain ⟨E, hnew, hEk, hEf⟩ : ∃ E : Encoder, Encoder.new k parityCount = .ok E ∧
      E.k = k ∧ E.frames = [] :=
    ⟨_, dif_pos ⟨hk, hp⟩, rfl, rfl⟩
  obtain ⟨E', hrun⟩ := E.addAll frames (by rw [hEf, hEk, List.length_nil]; omega) hrange
  have hne : E'.frames ≠ [] := by
    rw [(Encoder.addAll_ok hrun).2.2, hEf, List.nil_append]
    exact List.ne_nil_of_length_pos hn.1
  have hclose := close_eq ⟨E', genId, reason, hne⟩
  refine ⟨built ⟨E', genId, reason, hne⟩, ?_⟩
  simp only [Encoder.build, hnew, bind, Except.bind, hrun]
  rw [hclose]
  rfl

/-! ### Parity as a linear combination -/

theorem parityRow_concat (row : ℕ) (frames : List (List Byte)) (f : List Byte) (maxLen : ℕ) :
    Encoder.parityRow row (frames ++ [f]) maxLen =
      addRow (coefficient row frames.length) (Encoder.parityRow row frames maxLen)
        (protectedFrame f maxLen) := by
  rw [Encoder.parityRow, List.zipIdx_append, List.foldl_append, Nat.zero_add]
  rfl

/-- Parity shard zero is row zero of the code. -/
theorem parityZero_eq (frames : List (List Byte)) (maxLen : ℕ) (h : frames.length ≤ 128) :
    Encoder.parityZero frames maxLen = Encoder.parityRow 0 frames maxLen := by
  induction frames using List.reverseRecOn with
  | nil => rfl
  | append_singleton frames f ih =>
    rw [List.length_append, List.length_singleton] at h
    have hone : ∀ y, mul 1#8 y = y := fun y => (mul_comm' _ _).trans (mul_one' y)
    rw [parityRow_concat, ← ih (by omega), coefficient_zero (by omega), Encoder.parityZero,
      List.foldl_append, List.foldl_cons, List.foldl_nil, addRow, Encoder.parityZero]
    simp only [hone]

theorem parityRow_spec (row : ℕ) (frames : List (List Byte)) (maxLen : ℕ)
    (hle : ∀ f ∈ frames, f.length ≤ maxLen) :
    (Encoder.parityRow row frames maxLen).length = maxLen + 2 ∧
      ∀ j < maxLen + 2, GF256.of ((Encoder.parityRow row frames maxLen).getD j 0#8) =
        ∑ c ∈ Finset.range frames.length, GF256.of (coefficient row c) *
          GF256.of ((protectedFrame (frames.getD c []) maxLen).getD j 0#8) := by
  induction frames using List.reverseRecOn with
  | nil =>
    refine ⟨List.length_replicate, fun j hj => ?_⟩
    rw [Encoder.parityRow, List.length_nil, Finset.sum_range_zero]
    change GF256.of ((List.replicate (maxLen + 2) 0#8).getD j 0#8) = 0
    rw [List.getD_replicate _ hj, GF256.of_zero]
  | append_singleton frames f ih =>
    obtain ⟨hlen, hval⟩ := ih fun g hg => hle g (List.mem_append_left _ hg)
    have hf : (protectedFrame f maxLen).length = maxLen + 2 := protectedFrame_length
      (hle f (List.mem_append_right _ (List.mem_singleton_self f)))
    rw [parityRow_concat]
    refine ⟨by rw [addRow, List.length_zipWith, hlen, hf, Nat.min_self], fun j hj => ?_⟩
    rw [addRow, getD_zipWith (d := 0#8) (e := 0#8) _ _ _ (hlen ▸ hj) (hf ▸ hj), GF256.of_xor,
      GF256.of_mul, hval j hj, List.length_append, List.length_singleton, Finset.sum_range_succ]
    congr 1
    · refine Finset.sum_congr rfl fun c hc => ?_
      rw [List.getD_append _ _ _ _ (Finset.mem_range.mp hc)]
    · rw [List.getD_append_right _ _ _ _ le_rfl, Nat.sub_self, List.getD_cons_zero]

theorem payload_eq (O : Origin) (row : ℕ) :
    O.payload row = Encoder.parityRow row O.encoder.frames O.encoder.maxLen := by
  rw [payload]
  split
  · next h => rw [h, parityZero_eq _ _ (O.n_le.trans O.k_le)]
  · rfl

theorem payload_length (O : Origin) (row : ℕ) : (O.payload row).length = O.width := by
  rw [payload_eq]
  exact (parityRow_spec row _ _ fun _ hf => O.encoder.length_le_maxLen hf).1

/-- **Every byte of parity shard `row` is the sum of the blocks' bytes, weighted by the
coefficients of that row.** -/
theorem of_payload (O : Origin) (row : ℕ) {j : ℕ} (hj : j < O.width) :
    GF256.of ((O.payload row).getD j 0#8) = ∑ c ∈ Finset.range O.n,
      GF256.of (coefficient row c) * GF256.of ((O.block c).getD j 0#8) := by
  rw [payload_eq]
  exact (parityRow_spec row _ _ fun _ hf => O.encoder.length_le_maxLen hf).2 j hj

/-! ### The numbers in the envelopes -/

/-- Nothing in the envelope of a data shard is cut off. -/
theorem dataEnvelope_toNat (O : Origin) {x : ℕ} (hx : x < O.n) :
    (O.dataEnvelope x).index.toNat = x ∧ (O.dataEnvelope x).k.toNat = O.encoder.k ∧
      (O.dataEnvelope x).protectedLen.toNat = (O.frame x).length := by
  have hn := O.n_le
  have hk := O.k_le
  have hframe := O.frame_range hx
  rw [Wire.maxFrame] at hframe
  exact ⟨toNat_ofNat_small (by omega), toNat_ofNat_small (by omega), toNat_ofNat_small (by omega)⟩

theorem parityEnvelope_k (O : Origin) (row : ℕ) : (O.parityEnvelope row).k.toNat = O.n := by
  have hn := O.n_le
  have hk := O.k_le
  exact toNat_ofNat_small (by omega)

/-- Nothing in the envelope of a parity shard is cut off. -/
theorem parityEnvelope_toNat (O : Origin) {row : ℕ} (hrow : row < O.p) :
    (O.parityEnvelope row).index.toNat = O.n + row ∧
      (O.parityEnvelope row).parityCount.toNat = O.p ∧
      (O.parityEnvelope row).protectedLen.toNat = (O.payload row).length := by
  have hn := O.n_le
  have hk := O.k_le
  have hp := O.p_le
  have hwidth := O.width_le
  rw [Wire.maxFrame] at hwidth
  refine ⟨toNat_ofNat_small (by omega), toNat_ofNat_small (by omega), toNat_ofNat_small ?_⟩
  rw [O.payload_length]
  omega

end Origin
end Fec
end PulseFanout
