import PulseFanout.Durable.Store

/-!
# What the spool counts

The byte total of the spool is kept by two triggers and not by the operations, and a session's
mark and its row are written by two statements, each of which may fail. Over every sequence of
operations, of closings and of reopenings, the two stay together (`spool_accounting`): the total is
that of the pending payloads and within the limit, a mark moves by one and only with its row, and
what raises changes nothing.

What an operation can do to a store is said once (`Performed`). `Spool` is a database with the
object that has it open: while it is closed every operation raises, and while it is open it cannot
be opened again, for the lock file is taken.
-/

namespace PulseFanout
namespace Durable

open Framework

variable {κ : Type}

/-! ### The total -/

/-- The bytes that wait. -/
def Store.bytesPending (S : Store κ) : ℕ := (S.pending.map fun row => row.payload.length).sum

/-- The total is right and within the limit. -/
structure Balanced (S : Store κ) : Prop where
  total : S.total = S.bytesPending
  le : S.total ≤ S.limit

namespace Balanced

variable {S : Store κ}

theorem create (limit : ℕ) (identity : String) (session : κ) :
    Balanced (Store.create limit identity session) :=
  ⟨rfl, Nat.zero_le limit⟩

/-- The trigger `pending_added`. -/
theorem append (h : Balanced S) {session : κ} {remoteId : ℕ} {payload : List Byte}
    (hfits : S.total + payload.length ≤ S.limit) :
    Balanced (S.append session remoteId payload) := by
  refine ⟨?_, hfits⟩
  rw [Store.bytesPending, Store.append, List.map_append, List.sum_append, ← Store.bytesPending,
    ← h.total]
  rfl

theorem foldl_sub (rows : List (Row κ)) (total : ℕ) :
    rows.foldl (fun total row => total - row.payload.length) total =
      total - (rows.map fun row => row.payload.length).sum := by
  induction rows generalizing total with
  | nil => rfl
  | cons row rows ih =>
    rw [List.foldl_cons, ih, List.map_cons, List.sum_cons, Nat.sub_sub]

/-- The rows that go and those that stay. -/
theorem sum_filter_add (rows : List (Row κ)) (rowId : ℕ) :
    ((rows.filter fun row => row.id = rowId).map fun row => row.payload.length).sum +
        ((rows.filter fun row => row.id ≠ rowId).map fun row => row.payload.length).sum =
      (rows.map fun row => row.payload.length).sum := by
  induction rows with
  | nil => rfl
  | cons row rows ih =>
    rw [List.map_cons, List.sum_cons, ← ih]
    by_cases h : row.id = rowId
    · rw [List.filter_cons_of_pos (by simpa using h), List.filter_cons_of_neg (by simpa using h),
        List.map_cons, List.sum_cons, Nat.add_assoc]
    · rw [List.filter_cons_of_neg (by simpa using h), List.filter_cons_of_pos (by simpa using h),
        List.map_cons, List.sum_cons, Nat.add_left_comm]

/-- The trigger `pending_removed`. -/
theorem retire (h : Balanced S) (rowId : ℕ) : Balanced (S.retire rowId) := by
  have hsplit := sum_filter_add S.pending rowId
  have htotal := h.total
  have hle := h.le
  rw [Store.bytesPending] at htotal
  refine ⟨?_, ?_⟩
  · change List.foldl _ S.total _ = _
    rw [foldl_sub, Store.bytesPending, Store.retire]
    dsimp only
    omega
  · change List.foldl _ S.total _ ≤ S.limit
    rw [foldl_sub]
    omega

end Balanced

/-! ### Operations -/

/-- What can be asked of a store. Sequence numbers are Python integers. -/
inductive Op (κ : Type)
  | enqueue (disk : Disk) (payload : List Byte)
  | accept (disk : Disk) (session : κ) (sequence : ℤ) (payload : List Byte)
  | first
  | retire (disk : Disk) (rowId : ℕ)

/-- Whether the operation returned, and the store it leaves. A negative sequence number fails the
first test of `accept`, as zero does. -/
def Store.perform [DecidableEq κ] (S : Store κ) : Op κ → Bool × Store κ
  | .enqueue disk payload => ((S.enqueue disk payload).1.isOk, (S.enqueue disk payload).2)
  | .accept disk session sequence payload =>
    ((S.accept disk session sequence.toNat payload).1.isOk,
      (S.accept disk session sequence.toNat payload).2)
  | .first => (true, S)
  | .retire disk rowId => if disk 0 then (true, S.retire rowId) else (false, S)

/-- What an operation can do. -/
inductive Performed [DecidableEq κ] (S : Store κ) : Bool → Store κ → Prop
  /-- It raises, or there is nothing to write. -/
  | still (returned : Bool) : Performed S returned S
  | enqueued {payload : List Byte} (hfits : S.total + payload.length ≤ S.limit) :
    Performed S true (S.append S.session 0 payload)
  | accepted {session : κ} {payload : List Byte} (hfits : S.total + payload.length ≤ S.limit)
    (hroom : session ∈ S.received.keys ∨ S.received.size < 64) :
    Performed S true { S.append session (S.high session + 1) payload with
      received := S.received.set session (S.high session + 1) hroom }
  | retired (rowId : ℕ) : Performed S true (S.retire rowId)

section Performed

variable [DecidableEq κ] {S S' : Store κ} {returned : Bool}

theorem Store.perform_cases (S : Store κ) (op : Op κ) :
    Performed S (S.perform op).1 (S.perform op).2 := by
  cases op with
  | enqueue disk payload =>
    rw [perform]
    rcases S.enqueue_outcome disk payload with ⟨e, heq⟩ | ⟨-, -, hfits, heq⟩ <;> rw [heq]
    · exact .still false
    · exact .enqueued hfits
  | accept disk session sequence payload =>
    rw [perform]
    rcases S.accept_outcome disk session sequence.toNat payload with ⟨e, heq⟩ | ⟨-, heq⟩ |
      ⟨-, hnext, -, hfits, hroom, heq⟩
    · rw [heq]
      exact .still false
    · rw [heq]
      exact .still true
    · rw [heq]
      simp only [hnext]
      exact .accepted hfits hroom
  | first => exact .still true
  | retire disk rowId =>
    rw [perform]
    split
    · exact .retired rowId
    · exact .still false

namespace Performed

theorem balanced (hop : Performed S returned S') (h : Balanced S) :
    Balanced S' ∧ S'.limit = S.limit := by
  cases hop with
  | still => exact ⟨h, rfl⟩
  | enqueued hfits => exact ⟨h.append hfits, rfl⟩
  | @accepted session payload hfits hroom =>
    have happend : Balanced (S.append session (S.high session + 1) payload) := h.append hfits
    exact ⟨⟨happend.total, happend.le⟩, rfl⟩
  | retired rowId => exact ⟨h.retire rowId, rfl⟩

/-- A mark moves with its row. -/
theorem high (hop : Performed S returned S') (session : κ) :
    S'.high session = S.high session ∨
      S'.high session = S.high session + 1 ∧
        ∃ row, row.session = session ∧ row.remoteId = S.high session + 1 ∧
          S'.pending = S.pending ++ [row] := by
  cases hop with
  | @accepted session' payload hfits hroom =>
    by_cases heq : session = session'
    · subst heq
      exact Or.inr ⟨(Store.high_of_set hroom rfl).1, _, rfl, rfl, rfl⟩
    · exact Or.inl ((Store.high_of_set hroom rfl).2 session heq)
  | _ => exact Or.inl rfl

/-- What raises changes nothing. -/
theorem raised (hop : Performed S false S') : S' = S := by
  cases hop with
  | still => rfl

end Performed
end Performed

/-! ### Closing and reopening -/

/-- A database and whether a `Store` object has it open. -/
structure Spool (κ : Type) where
  store : Store κ
  isOpen : Bool

/-- What can happen to a spool. -/
inductive SpoolAction (κ : Type)
  | call (op : Op κ)
  | close
  /-- `Store(path, limit, identity)` with the limit and the identity of before. -/
  | reopen

namespace Spool

variable [DecidableEq κ]

/-- A new database, open. -/
def create (limit : ℕ) (identity : String) (session : κ) : Spool κ :=
  ⟨Store.create limit identity session, true⟩

/-- Whether the action succeeded, and the spool it leaves. -/
def step (P : Spool κ) : SpoolAction κ → Bool × Spool κ
  | .call op =>
    if P.isOpen then ((P.store.perform op).1, { P with store := (P.store.perform op).2 })
    else (false, P)
  | .close => (true, { P with isOpen := false })
  | .reopen =>
    if P.isOpen then (false, P)
    else match P.store.reopen P.store.limit P.store.identity with
      | .error _ => (false, P)
      | .ok store => (true, ⟨store, true⟩)

/-- The spool after a sequence of actions. -/
def run (P : Spool κ) (actions : List (SpoolAction κ)) : Spool κ :=
  actions.foldl (fun P a => (P.step a).2) P

theorem run_concat (P : Spool κ) (actions : List (SpoolAction κ)) (a : SpoolAction κ) :
    P.run (actions ++ [a]) = ((P.run actions).step a).2 := by
  rw [run, List.foldl_append, List.foldl_cons, List.foldl_nil, ← run]

/-- To the database an action is an operation, or nothing. -/
theorem step_performed (P : Spool κ) (a : SpoolAction κ) :
    Performed P.store (P.step a).1 (P.step a).2.store := by
  cases a with
  | call op =>
    rw [step]
    split
    · exact P.store.perform_cases op
    · exact .still false
  | close => exact .still true
  | reopen =>
    have hreopen : P.store.reopen P.store.limit P.store.identity = .ok P.store := by
      rw [Store.reopen, if_neg (not_not.mpr rfl)]
    rw [step, hreopen]
    split
    · exact .still false
    · exact .still true

theorem run_balanced (limit : ℕ) (identity : String) (session : κ)
    (actions : List (SpoolAction κ)) :
    Balanced ((create limit identity session).run actions).store ∧
      ((create limit identity session).run actions).store.limit = limit := by
  induction actions using List.reverseRecOn with
  | nil => exact ⟨Balanced.create limit identity session, rfl⟩
  | append_singleton actions a ih =>
    rw [run_concat]
    obtain ⟨hbalanced, hlimit⟩ := (step_performed _ a).balanced ih.1
    exact ⟨hbalanced, hlimit.trans ih.2⟩

end Spool

/-- **The accounting of the spool.** After any sequence of operations, closings and reopenings,

* the total is the sum of the lengths of the pending payloads, and at most the limit;
* there are at most 64 sessions;
* the next action leaves a session's mark alone, or moves it on by one together with the insertion
  of exactly one row, of that session and with that number;
* and if it raises, then the pending rows, the marks and the total are as they were. -/
theorem spool_accounting [DecidableEq κ] (limit : ℕ) (identity : String) (session : κ)
    (actions : List (SpoolAction κ)) (a : SpoolAction κ) :
    let P := (Spool.create limit identity session).run actions
    let P' := (P.step a).2
    P.store.total = (P.store.pending.map fun row => row.payload.length).sum ∧
    P.store.total ≤ limit ∧
    P.store.received.size ≤ 64 ∧
    (∀ s, P'.store.high s = P.store.high s ∨
      P'.store.high s = P.store.high s + 1 ∧
        ∃ row, row.session = s ∧ row.remoteId = P.store.high s + 1 ∧
          P'.store.pending = P.store.pending ++ [row]) ∧
    ((P.step a).1 = false →
      P'.store.pending = P.store.pending ∧ P'.store.received = P.store.received ∧
        P'.store.total = P.store.total) := by
  intro P P'
  obtain ⟨hbalanced, hlimit⟩ := Spool.run_balanced limit identity session actions
  have hop : Performed P.store (P.step a).1 P'.store := P.step_performed a
  refine ⟨hbalanced.total, hlimit ▸ hbalanced.le, P.store.received.size_le, hop.high,
    fun hraised => ?_⟩
  rw [hraised] at hop
  rw [hop.raised]
  exact ⟨rfl, rfl, rfl⟩

end Durable
end PulseFanout
