import Mathlib.Data.Finset.Basic

/-!
# Advisory locks of a file (`flock`)

One party has the lock exclusively, or any number share it, and never both: that is part of the
type. The operations are those that do not block. `release` is also what happens to the lock of a
party that closes the file or dies.

What others do leaves the lock of a party alone (`Keeps`).
-/

namespace Framework

variable {π : Type}

/-- Who has the lock. -/
structure FileLock (π : Type) where
  exclusive : Option π
  shared : Finset π
  apart : exclusive ≠ none → shared = ∅

namespace FileLock

/-- Nobody has it. -/
def free : FileLock π := ⟨none, ∅, fun h => absurd rfl h⟩

/-- Sharers exclude an exclusive owner. -/
theorem exclusive_eq_none {l : FileLock π} {p : π} (h : p ∈ l.shared) : l.exclusive = none := by
  by_contra hsome
  rw [l.apart hsome] at h
  exact absurd h (Finset.notMem_empty p)

/-- The locks of all but `p` are as they were. -/
structure Keeps (p : π) (l l' : FileLock π) : Prop where
  exclusive : ∀ q, q ≠ p → l.exclusive = some q → l'.exclusive = some q
  shared : ∀ q, q ≠ p → q ∈ l.shared → q ∈ l'.shared

theorem Keeps.refl (p : π) (l : FileLock π) : Keeps p l l :=
  ⟨fun _ _ h => h, fun _ _ h => h⟩

section Operations

variable [DecidableEq π] {l l' : FileLock π} {p : π}

/-- `LOCK_EX | LOCK_NB`; `none` is `EWOULDBLOCK`. -/
def tryExclusive (l : FileLock π) (p : π) : Option (FileLock π) :=
  if l.exclusive = none ∧ l.shared = ∅ then some ⟨some p, ∅, fun _ => rfl⟩ else none

/-- `LOCK_SH | LOCK_NB`. -/
def tryShared (l : FileLock π) (p : π) : Option (FileLock π) :=
  if l.exclusive = none then some ⟨none, insert p l.shared, fun h => absurd rfl h⟩ else none

/-- `LOCK_UN`. -/
def release (l : FileLock π) (p : π) : FileLock π where
  exclusive := if l.exclusive = some p then none else l.exclusive
  shared := l.shared.erase p
  apart := fun h => by
    have hsome : l.exclusive ≠ none := by
      intro hnone
      rw [hnone] at h
      exact h (ite_self none)
    rw [l.apart hsome, Finset.erase_empty]

theorem tryExclusive_spec (h : l.tryExclusive p = some l') :
    l'.exclusive = some p ∧ Keeps p l l' := by
  unfold tryExclusive at h
  split at h
  · next hfree =>
    cases h
    refine ⟨rfl, fun q _ hq => ?_, fun q _ hq => ?_⟩
    · rw [hfree.1] at hq
      cases hq
    · rw [hfree.2] at hq
      exact absurd hq (Finset.notMem_empty q)
  · cases h

theorem tryShared_spec (h : l.tryShared p = some l') :
    l.exclusive = none ∧ p ∈ l'.shared ∧ Keeps p l l' := by
  unfold tryShared at h
  split at h
  · next hfree =>
    cases h
    refine ⟨hfree, Finset.mem_insert_self p _, fun q _ hq => ?_, fun q _ hq =>
      Finset.mem_insert_of_mem hq⟩
    rw [hfree] at hq
    cases hq
  · cases h

theorem release_keeps (l : FileLock π) (p : π) : Keeps p l (l.release p) where
  exclusive := fun q hne hq => by
    unfold release
    dsimp only
    rw [hq, if_neg fun heq => hne (Option.some.inj heq)]
  shared := fun q hne hq => Finset.mem_erase.mpr ⟨hne, hq⟩

end Operations

end FileLock
end Framework
