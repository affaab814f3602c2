import PulseFanout.Framework.Codec
import PulseFanout.Framework.Lists
import PulseFanout.Framework.Registry

/-!
# The spool (`durable_relay.py`, `Store`)

One SQLite database: the rows that wait (`pending`), for every session the highest sequence
number taken in (`received`), and the number of payload bytes that wait (`usage`, kept up to
date by two triggers). Ids come from `AUTOINCREMENT`: they are consecutive and never used
again, and the insertion after number `2 ^ 63 - 1` fails.

An operation that raises inside `with self.db` is rolled back (`transaction`). That is needed where
SQLite itself raises: every statement that writes may find no room (`Disk`), and `accept` has two.
What a caller needs to know of `enqueue` and `accept` is in `enqueue_outcome` and `accept_outcome`:
either the store is as it was, or exactly one row was appended, with the next id, and for `accept`
the session's mark moved on by one. `Spooled` ties a store to the rows ever put into it: ids are
places, and what is pending is what is left when the first `r` rows are taken away.
-/

namespace PulseFanout
namespace Durable

open Framework

/-- `MAX_FRAME` -/
def maxFrame : ℕ := 1100

/-- A session of the relay: the sixteen bytes whose hexadecimal digits the database keeps. The
store itself takes any text. -/
abbrev Session := BitVec 128

/-- A row of `pending`. -/
structure Row (κ : Type) where
  id : ℕ
  session : κ
  remoteId : ℕ
  payload : List Byte
deriving DecidableEq, Repr

/-- The exceptions of the store. -/
inductive Raise
  | valueError (text : String)
  | bufferError (text : String)
  /-- SQLite has run out of ids or has no room. -/
  | operationalError (text : String)
deriving DecidableEq, Repr

/-- Whether there is room for what the statements of an operation write, one after the other. Pages
are limited by `max_page_count`, and by what the disk holds. -/
abbrev Disk := ℕ → Bool

/-- There is room. -/
def Disk.ample : Disk := fun _ => true

/-- `Store`, with sessions in `κ` -/
structure Store (κ : Type) where
  limit : ℕ
  identity : String
  session : κ
  /-- In the order of the ids. -/
  pending : List (Row κ)
  received : Registry κ ℕ 64
  /-- `usage.total` -/
  total : ℕ
  /-- The last id given out. -/
  lastId : ℕ

namespace Store

variable {κ : Type}

/-- A database that did not exist. -/
def create (limit : ℕ) (identity : String) (session : κ) : Store κ :=
  { limit, identity, session, pending := [], received := Registry.empty, total := 0, lastId := 0 }

/-- `__init__` on a database that exists: the session it was created with stays. -/
def reopen (S : Store κ) (limit : ℕ) (identity : String) : Except Raise (Store κ) :=
  if S.identity ≠ identity then
    .error (.valueError "spool identity/configuration differs from its original owner")
  else .ok { S with limit }

/-- `with self.db`: commit, or roll back and raise. -/
def transaction {α : Type} (body : Store κ → Except Raise α × Store κ) (S : Store κ) :
    Except Raise α × Store κ :=
  match body S with
  | (.ok a, S') => (.ok a, S')
  | (.error e, _) => (.error e, S)

/-- The store with one more row; the trigger `pending_added` counts its bytes. -/
def append (S : Store κ) (session : κ) (remoteId : ℕ) (payload : List Byte) : Store κ :=
  { S with
    pending := S.pending ++ [⟨S.lastId + 1, session, remoteId, payload⟩]
    total := S.total + payload.length
    lastId := S.lastId + 1 }

/-- What SQLite raises. -/
def full : Raise := .operationalError "database or disk is full"

/-- `INSERT INTO pending(session,remote_id,payload)`, if there is `room` for it. -/
def insert (S : Store κ) (room : Bool) (session : κ) (remoteId : ℕ) (payload : List Byte) :
    Except Raise ℕ × Store κ :=
  if room ∧ S.lastId + 1 < 2 ^ 63 then (.ok (S.lastId + 1), S.append session remoteId payload)
  else (.error full, S)

/-- `enqueue` -/
def enqueue (S : Store κ) (disk : Disk) (payload : List Byte) : Except Raise ℕ × Store κ :=
  if ¬ (1 ≤ payload.length ∧ payload.length ≤ maxFrame) then
    (.error (.valueError "invalid durable payload"), S)
  else
    transaction (fun S =>
      if S.total + payload.length > S.limit then
        (.error (.bufferError "durable spool is full"), S)
      else S.insert (disk 0) S.session 0 payload) S

/-- The mark of a session, zero if it is unknown. -/
def high [DecidableEq κ] (S : Store κ) (session : κ) : ℕ := (S.received.find session).getD 0

/-- `accept`. That the session's mark finds a place is what the check of the limit has
established. -/
def accept [DecidableEq κ] (S : Store κ) (disk : Disk) (session : κ) (sequence : ℕ)
    (payload : List Byte) : Except Raise Bool × Store κ :=
  if ¬ ((1 ≤ sequence ∧ sequence < 2 ^ 63) ∧ 1 ≤ payload.length ∧ payload.length ≤ maxFrame) then
    (.error (.valueError "invalid durable frame"), S)
  else
    transaction (fun S =>
      if sequence ≤ S.high session then (.ok false, S)
      else if sequence ≠ S.high session + 1 then
        (.error (.valueError "durable sequence gap"), S)
      else if hfull : session ∉ S.received.keys ∧ 64 ≤ S.received.size then
        (.error (.bufferError "durable session limit reached"), S)
      else if S.total + payload.length > S.limit then
        (.error (.bufferError "durable inbox is full"), S)
      else
        match S.insert (disk 0) session sequence payload with
        | (.error e, S') => (.error e, S')
        | (.ok _, S') =>
          if disk 1 then
            (.ok true, { S' with received := S.received.set session sequence (by
              rw [not_and_or, not_not, not_le] at hfull
              exact hfull) })
          -- the row is in the table, and the mark is not
          else (.error full, S')) S

/-- `first` -/
def first (S : Store κ) : Option (Row κ) := S.pending.head?

/-- `retire`; the trigger `pending_removed` runs for every row that goes. -/
def retire (S : Store κ) (rowId : ℕ) : Store κ :=
  { S with
    pending := S.pending.filter fun row => row.id ≠ rowId
    total := (S.pending.filter fun row => row.id = rowId).foldl
      (fun total row => total - row.payload.length) S.total }

/-! ### What the operations do -/

section Specs

variable {S S' : Store κ} {session : κ} {payload : List Byte}

theorem transaction_error {α : Type} {body : Store κ → Except Raise α × Store κ} {e : Raise}
    (h : transaction body S = (.error e, S')) : S' = S := by
  unfold transaction at h
  split at h
  · cases h
  · cases h
    rfl

theorem transaction_ok {α : Type} {body : Store κ → Except Raise α × Store κ} {a : α}
    (h : transaction body S = (.ok a, S')) : body S = (.ok a, S') := by
  unfold transaction at h
  split at h
  · next hbody =>
    cases h
    exact hbody
  · cases h

theorem insert_ok {room : Bool} {remoteId id : ℕ}
    (h : S.insert room session remoteId payload = (.ok id, S')) :
    S.lastId + 1 < 2 ^ 63 ∧ id = S.lastId + 1 ∧ S' = S.append session remoteId payload := by
  unfold insert at h
  split at h
  · next hroom =>
    cases h
    exact ⟨hroom.2, rfl, rfl⟩
  · cases h

/-- **`enqueue`** raises and leaves the store alone, or finds room and appends the row. -/
theorem enqueue_outcome (S : Store κ) (disk : Disk) (payload : List Byte) :
    (∃ e, S.enqueue disk payload = (.error e, S)) ∨
      ((1 ≤ payload.length ∧ payload.length ≤ maxFrame) ∧ S.lastId + 1 < 2 ^ 63 ∧
        S.total + payload.length ≤ S.limit ∧
        S.enqueue disk payload = (.ok (S.lastId + 1), S.append S.session 0 payload)) := by
  unfold enqueue
  split
  · exact Or.inl ⟨_, rfl⟩
  next hlen =>
  rw [not_not] at hlen
  cases hbody : transaction (fun S =>
      if S.total + payload.length > S.limit then
        (.error (.bufferError "durable spool is full"), S)
      else S.insert (disk 0) S.session 0 payload) S with
  | mk result S' =>
    cases result with
    -- whatever was raised, the transaction has rolled back
    | error e => exact Or.inl ⟨e, by rw [transaction_error hbody]⟩
    | ok id =>
      have hin := transaction_ok hbody
      split at hin
      · cases hin
      · next hfits =>
        obtain ⟨hroom, rfl, rfl⟩ := insert_ok hin
        exact Or.inr ⟨hlen, hroom, not_lt.mp hfits, rfl⟩

/-- **`accept`** raises, or has the frame already, and leaves the store alone; or it finds room,
appends the row and moves the session's mark on by one. -/
theorem accept_outcome [DecidableEq κ] (S : Store κ) (disk : Disk) (session : κ) (sequence : ℕ)
    (payload : List Byte) :
    (∃ e, S.accept disk session sequence payload = (.error e, S)) ∨
      (sequence ≤ S.high session ∧ S.accept disk session sequence payload = (.ok false, S)) ∨
      ((1 ≤ payload.length ∧ payload.length ≤ maxFrame) ∧ sequence = S.high session + 1 ∧
        S.lastId + 1 < 2 ^ 63 ∧ S.total + payload.length ≤ S.limit ∧
        ∃ hroom, S.accept disk session sequence payload =
          (.ok true, { S.append session sequence payload with
            received := S.received.set session sequence hroom })) := by
  unfold accept
  split
  · exact Or.inl ⟨_, rfl⟩
  next hvalid =>
  rw [not_not] at hvalid
  rw [transaction]
  split
  · next a S' hbody =>
    -- the checks of the source in their order; each that fails raises and rolls back
    split at hbody
    · next hle =>
      cases hbody
      exact Or.inr (Or.inl ⟨hle, rfl⟩)
    next hgt =>
    split at hbody
    · cases hbody
    next hnext =>
    rw [not_not] at hnext
    split at hbody
    · cases hbody
    next hfull =>
    rw [not_and_or, not_not, not_le] at hfull
    split at hbody
    · cases hbody
    next hfits =>
    split at hbody
    · cases hbody
    · next hin =>
      obtain ⟨hroom, -, rfl⟩ := insert_ok hin
      split at hbody
      · cases hbody
        exact Or.inr (Or.inr ⟨hvalid.2, hnext, hroom, not_lt.mp hfits, hfull, rfl⟩)
      -- the second statement has failed: the row goes again
      · cases hbody
  · exact Or.inl ⟨_, rfl⟩

/-- A mark that was set. -/
theorem high_of_set [DecidableEq κ] {n : ℕ}
    (hroom : session ∈ S.received.keys ∨ S.received.size < 64)
    (h : S'.received = S.received.set session n hroom) :
    S'.high session = n ∧ ∀ session', session' ≠ session → S'.high session' = S.high session' := by
  refine ⟨?_, fun session' hne => ?_⟩
  · rw [high, h, Registry.find_set]
    rfl
  · rw [high, h, Registry.find_set_ne _ _ hne]
    rfl

end Specs
end Store

/-! ### A store and its history -/

variable {κ : Type}

/-- `all` are the rows ever put into the store, and the first `r` have been retired. -/
structure Spooled (S : Store κ) (all : List (Row κ)) (r : ℕ) : Prop where
  pending : S.pending = all.drop r
  le : r ≤ all.length
  lastId : S.lastId = all.length
  small : all.length < 2 ^ 63
  numbered : ∀ i row, all[i]? = some row → row.id = i + 1
  sized : ∀ row ∈ all, 1 ≤ row.payload.length ∧ row.payload.length ≤ maxFrame

namespace Spooled

variable {S S' : Store κ} {all : List (Row κ)} {r : ℕ}

theorem create (limit : ℕ) (identity : String) (session : κ) :
    Spooled (Store.create limit identity session) [] 0 where
  pending := rfl
  le := le_rfl
  lastId := rfl
  small := by rw [List.length_nil]; decide
  numbered := fun i row h => by rw [List.getElem?_nil] at h; cases h
  sized := fun row h => absurd h List.not_mem_nil

/-- A row is put in. -/
theorem append (h : Spooled S all r) (hroom : S.lastId + 1 < 2 ^ 63) {row : Row κ}
    (hid : row.id = S.lastId + 1)
    (hsize : 1 ≤ row.payload.length ∧ row.payload.length ≤ maxFrame)
    (hpending : S'.pending = S.pending ++ [row]) (hlast : S'.lastId = S.lastId + 1) :
    Spooled S' (all ++ [row]) r where
  pending := by rw [hpending, h.pending, List.drop_append_of_le_length h.le]
  le := by rw [List.length_append]; exact h.le.trans (Nat.le_add_right _ _)
  lastId := by rw [hlast, h.lastId, List.length_append, List.length_singleton]
  small := by
    rw [List.length_append, List.length_singleton, ← h.lastId]
    exact hroom
  numbered := by
    intro i row' hget
    -- an old row, or the new one at the end
    rcases Nat.lt_or_ge i all.length with hi | hi
    · rw [List.getElem?_append_left hi] at hget
      exact h.numbered i row' hget
    · rw [List.getElem?_append_right hi] at hget
      obtain ⟨hzero, rfl⟩ := List.getElem?_eq_some_iff.mp hget
      rw [List.length_singleton] at hzero
      have hlast := h.lastId
      simp only [show i - all.length = 0 by omega, List.getElem_cons_zero]
      omega
  sized := by
    intro row' hmem
    rcases List.mem_append.mp hmem with hmem | hmem
    · exact h.sized row' hmem
    · rw [List.mem_singleton.mp hmem]
      exact hsize

/-- The first row is the one after those retired. -/
theorem first (h : Spooled S all r) {row : Row κ} (hhead : S.pending.head? = some row) :
    all[r]? = some row ∧ row.id = r + 1 := by
  rw [h.pending, List.head?_drop] at hhead
  exact ⟨hhead, h.numbered r row hhead⟩

/-- The first row is retired. -/
theorem retire (h : Spooled S all r) {row : Row κ} (hhead : S.pending.head? = some row) :
    Spooled (S.retire row.id) all (r + 1) := by
  obtain ⟨hget, hid⟩ := h.first hhead
  obtain ⟨hlt, hrow⟩ := List.getElem?_eq_some_iff.mp hget
  refine ⟨?_, hlt, h.lastId, h.small, h.numbered, h.sized⟩
  change S.pending.filter (fun row' => row'.id ≠ row.id) = all.drop (r + 1)
  rw [h.pending, List.drop_eq_getElem_cons hlt, hrow, List.filter_cons_of_neg (by simp),
    List.filter_eq_self]
  -- every later row has a larger id
  intro row' hmem
  obtain ⟨i, hi, heq⟩ := List.mem_drop_iff_getElem.mp hmem
  have hid' := h.numbered (r + 1 + i) row' (List.getElem?_eq_some_iff.mpr ⟨by omega, heq⟩)
  simp only [ne_eq, decide_not, Bool.not_eq_true', decide_eq_false_iff_not]
  omega

theorem length_retire (h : Spooled S all r) {row : Row κ} (hhead : S.pending.head? = some row) :
    (S.retire row.id).pending.length + 1 = S.pending.length := by
  have hlt := (List.getElem?_eq_some_iff.mp (h.first hhead).1).1
  rw [(h.retire hhead).pending, h.pending, List.length_drop, List.length_drop]
  omega

/-- What was put in is pending or was retired. -/
theorem pending_or (h : Spooled S all r) {i : ℕ} (hi : i < all.length) :
    all[i] ∈ S.pending ∨ i < r := by
  rcases Nat.lt_or_ge i r with hlt | hge
  · exact Or.inr hlt
  · left
    rw [h.pending]
    exact List.mem_drop_iff_getElem.mpr ⟨i - r, by omega, by congr 1; omega⟩

theorem id_le (h : Spooled S all r) {row : Row κ} (hmem : row ∈ all) :
    1 ≤ row.id ∧ row.id ≤ all.length ∧ all[row.id - 1]? = some row := by
  obtain ⟨i, hi, rfl⟩ := List.getElem_of_mem hmem
  have hget : all[i]? = some all[i] := List.getElem?_eq_getElem hi
  have hid := h.numbered i _ hget
  rw [hid, Nat.add_sub_cancel]
  exact ⟨by omega, by omega, hget⟩

end Spooled

end Durable
end PulseFanout
