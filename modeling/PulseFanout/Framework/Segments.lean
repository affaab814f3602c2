import PulseFanout.Framework.Codec

/-!
# Byte streams in segments

A stream socket gives its reader the bytes in segments that have nothing to do with how they were
written, and takes from its writer as many bytes at a time as it has room for. `Inbound` and
`Outbound` are everything such a socket does to one side, in order: segments that arrive, room that
becomes free, calls that have to be repeated, and an end, which may come at any byte.

`gather` and `write` are the loops that deal with it: ask for what is missing until it is there,
offer what is left until it is taken. Both are described without any reference to the segments:
`gather` gets the first bytes of `bytes`, `write` places as many as there is `room`.
-/

namespace Framework

/-! ### Reading -/

/-- What a stream socket has for its reader. -/
inductive Arrival
  /-- A segment, which is not empty. -/
  | segment (first : Byte) (more : List Byte)
  /-- Nothing yet; the call is repeated. -/
  | idle
  /-- The other side has closed the stream. -/
  | closed
  /-- An error, a timeout or a request to stop. -/
  | failed
deriving DecidableEq

/-- The arrivals in order. After the last there are none until the reader times out. -/
abbrev Inbound := List Arrival

/-- Why a stream has no more bytes. -/
inductive End
  | closed
  | failed
deriving DecidableEq

namespace Inbound

/-- The bytes that arrive before the end. -/
def bytes : Inbound → List Byte
  | [] => []
  | .segment first more :: s => first :: more ++ bytes s
  | .idle :: s => bytes s
  | .closed :: _ => []
  | .failed :: _ => []

def ending : Inbound → End
  | [] => .failed
  | .segment _ _ :: s => ending s
  | .idle :: s => ending s
  | .closed :: _ => .closed
  | .failed :: _ => .failed

/-- Bytes that have arrived and are not yet read. -/
def unread : List Byte → Inbound → Inbound
  | [], s => s
  | first :: more, s => .segment first more :: s

/-- Read until there are `size` bytes: what was read, why there is not more if it is too little, and
what is left. -/
def gather : Inbound → ℕ → List Byte × Option End × Inbound
  | s, 0 => ([], none, s)
  | [], _ + 1 => ([], some .failed, [])
  | .segment first more :: s, size + 1 =>
    -- one call returns no more than asked for, and no more than one segment
    if more.length ≤ size then
      let (got, why, rest) := gather s (size - more.length)
      (first :: more ++ got, why, rest)
    else (first :: more.take size, none, unread (more.drop size) s)
  | .idle :: s, size + 1 => gather s (size + 1)
  | .closed :: s, _ + 1 => ([], some .closed, .closed :: s)
  | .failed :: s, _ + 1 => ([], some .failed, .failed :: s)

@[simp] theorem bytes_unread (bs : List Byte) (s : Inbound) :
    (unread bs s).bytes = bs ++ s.bytes := by
  cases bs with
  | nil => rfl
  | cons first more => rfl

@[simp] theorem ending_unread (bs : List Byte) (s : Inbound) :
    (unread bs s).ending = s.ending := by
  cases bs with
  | nil => rfl
  | cons first more => rfl

/-- What `gather` may answer: the bytes asked for, or all there are and why. -/
structure Gathers (s : Inbound) (size : ℕ) (result : List Byte × Option End × Inbound) : Prop where
  got : result.1 = s.bytes.take size
  why : result.2.1 = if size ≤ s.bytes.length then none else some s.ending
  bytes : result.2.2.bytes = s.bytes.drop size
  ending : result.2.2.ending = s.ending

/-- **The segments do not show.** -/
theorem gathers (s : Inbound) (size : ℕ) : Gathers s size (s.gather size) := by
  induction s generalizing size with
  | nil =>
    cases size with
    | zero => exact ⟨rfl, rfl, rfl, rfl⟩
    | succ size => exact ⟨rfl, rfl, rfl, rfl⟩
  | cons arrival s ih =>
    cases size with
    | zero => exact ⟨rfl, (if_pos (Nat.zero_le _)).symm, rfl, rfl⟩
    | succ size =>
      cases arrival with
      | segment first more =>
        unfold gather
        split
        · next hall =>
          -- the segment is used up
          obtain ⟨hgot, hwhy, hbytes, hending⟩ := ih (size - more.length)
          refine ⟨?_, ?_, ?_, hending⟩
          · show first :: more ++ (gather s (size - more.length)).1 = _
            rw [hgot, bytes, List.cons_append, List.cons_append, List.take_succ_cons,
              List.take_append, List.take_of_length_le hall]
          · show (gather s (size - more.length)).2.1 = _
            rw [hwhy, bytes, ending, List.cons_append, List.length_cons, List.length_append]
            exact if_congr (by omega) rfl rfl
          · show (gather s (size - more.length)).2.2.bytes = _
            rw [hbytes, bytes, List.cons_append, List.drop_succ_cons, List.drop_append,
              List.drop_of_length_le hall, List.nil_append]
        · next hmore =>
          have hlt : size < more.length := Nat.lt_of_not_le hmore
          refine ⟨?_, ?_, ?_, ?_⟩
          · rw [bytes, List.cons_append, List.take_succ_cons, List.take_append_of_le_length hlt.le]
          · rw [bytes, List.cons_append, List.length_cons, List.length_append]
            exact (if_pos (by omega)).symm
          · rw [bytes_unread, bytes, List.cons_append, List.drop_succ_cons,
              List.drop_append_of_le_length hlt.le]
          · rw [ending_unread]
            rfl
      | idle =>
        obtain ⟨hgot, hwhy, hbytes, hending⟩ := ih (size + 1)
        exact ⟨hgot, hwhy, hbytes, hending⟩
      | closed => exact ⟨rfl, rfl, rfl, rfl⟩
      | failed => exact ⟨rfl, rfl, rfl, rfl⟩

end Inbound

/-! ### Writing -/

/-- What a stream socket does for its writer. -/
inductive Chance
  /-- There is room for `more + 1` bytes. -/
  | room (more : ℕ)
  /-- There is none yet; the call is repeated. -/
  | idle
  /-- An error, a timeout or a request to stop. -/
  | failed
deriving DecidableEq

/-- The chances in order. After the last there are none until the writer times out. -/
abbrev Outbound := List Chance

namespace Outbound

/-- The number of bytes that can be written before a failure. -/
def room : Outbound → ℕ
  | [] => 0
  | .room more :: out => more + 1 + room out
  | .idle :: out => room out
  | .failed :: _ => 0

/-- Write until nothing is left: what was written, whether that is all, and what is left. -/
def write : Outbound → List Byte → List Byte × Bool × Outbound
  | out, [] => ([], true, out)
  | [], _ :: _ => ([], false, [])
  | .room more :: out, b :: bs =>
    if bs.length < more then (b :: bs, true, .room (more - bs.length - 1) :: out)
    else
      let (written, all, rest) := write out (bs.drop more)
      (b :: bs.take more ++ written, all, rest)
  | .idle :: out, b :: bs => write out (b :: bs)
  | .failed :: out, _ :: _ => ([], false, .failed :: out)

/-- What `write` may answer. -/
structure Writes (out : Outbound) (data : List Byte) (result : List Byte × Bool × Outbound) :
    Prop where
  written : result.1 = data.take out.room
  all : result.2.1 = decide (data.length ≤ out.room)
  room : result.2.2.room = out.room - data.length

/-- **As much is written as there is room for.** -/
theorem writes (out : Outbound) (data : List Byte) : Writes out data (out.write data) := by
  induction out generalizing data with
  | nil =>
    cases data with
    | nil => exact ⟨rfl, rfl, rfl⟩
    | cons b bs => exact ⟨rfl, rfl, (Nat.zero_sub _).symm⟩
  | cons chance out ih =>
    cases data with
    | nil => exact ⟨List.take_nil.symm, (decide_eq_true (Nat.zero_le _)).symm, rfl⟩
    | cons b bs =>
      cases chance with
      | room more =>
        unfold write
        split
        -- the socket takes all that is left, and keeps some room
        · next hless =>
          refine ⟨?_, ?_, ?_⟩
          · rw [room, List.take_of_length_le]
            rw [List.length_cons]
            omega
          · rw [room, List.length_cons]
            exact (decide_eq_true (by omega)).symm
          · show more - bs.length - 1 + 1 + room out = more + 1 + room out - (bs.length + 1)
            omega
        -- a short write: the loop goes on with what was not taken
        · next hmore =>
          obtain ⟨hwritten, hall, hroom⟩ := ih (bs.drop more)
          rw [List.length_drop] at hall hroom
          refine ⟨?_, ?_, ?_⟩
          · show b :: bs.take more ++ (write out (bs.drop more)).1 = _
            rw [hwritten, room, Nat.add_right_comm, List.take_succ_cons, List.take_add]
            rfl
          · show (write out (bs.drop more)).2.1 = _
            rw [hall, room, List.length_cons]
            exact decide_eq_decide.mpr (by omega)
          · show (write out (bs.drop more)).2.2.room = more + 1 + room out - (bs.length + 1)
            rw [hroom]
            omega
      | idle =>
        obtain ⟨hwritten, hall, hroom⟩ := ih (b :: bs)
        exact ⟨hwritten, hall, hroom⟩
      | failed => exact ⟨rfl, rfl, (Nat.zero_sub _).symm⟩

/-- Nothing more is written after a failure. -/
theorem Writes.stop {out rest : Outbound} {data written : List Byte}
    (h : Writes out data (written, false, rest)) (more : List Byte) :
    Writes out (data ++ more) (written, false, rest) := by
  have hless : out.room < data.length := Nat.lt_of_not_le (of_decide_eq_false h.all.symm)
  refine ⟨?_, ?_, ?_⟩
  · rw [List.take_append_of_le_length hless.le]
    exact h.written
  · rw [List.length_append]
    exact (decide_eq_false (by omega)).symm
  · have hroom := h.room
    dsimp only at hroom ⊢
    rw [List.length_append]
    omega

/-- One piece after another. -/
theorem Writes.append {out rest : Outbound} {data written more : List Byte}
    {result : List Byte × Bool × Outbound} (h : Writes out data (written, true, rest))
    (hmore : Writes rest more result) :
    Writes out (data ++ more) (written ++ result.1, result.2) := by
  have hall : data.length ≤ out.room := of_decide_eq_true h.all.symm
  have hroom : rest.room = out.room - data.length := h.room
  have hwritten : written = data := h.written.trans (List.take_of_length_le hall)
  refine ⟨?_, ?_, ?_⟩
  · rw [hwritten, hmore.written, hroom, List.take_append, List.take_of_length_le hall]
  · rw [hmore.all, hroom, List.length_append]
    exact decide_eq_decide.mpr (by omega)
  · rw [hmore.room, hroom, List.length_append]
    omega

end Outbound

end Framework
