import Mathlib.Data.Int.Notation
import Mathlib.Data.List.Basic
import Mathlib.Logic.Function.Basic

/-!
# Tables of processes

What a system knows of its processes, by their numbers. The number of a process is given to another
one when it is gone, so a number alone does not say which process is meant; with the time of the
start it does (`Process`). A process runs, exits, and is a zombie until its parent has waited for
it.

None of this is undone (`Later`): what has exited does not run again, and what is gone does not come
back. So a process that is seen running was running ever since it was started, which turns what is
seen at different times into what was the case at one time (`Later.alive`).
-/

namespace Framework

/-- A process: its number and the time of its start. -/
structure Process where
  pid : ℕ
  start : ℕ
deriving DecidableEq

/-- What a process in the table does. -/
inductive Life
  | running
  | zombie (code : ℤ)
deriving DecidableEq

/-- The processes there are, by number, and all there ever were. -/
structure ProcessTable where
  entry : ℕ → Option (ℕ × Life)
  used : List Process
  known : ∀ {pid start life}, entry pid = some (start, life) → ⟨pid, start⟩ ∈ used

namespace ProcessTable

/-- No process. -/
def empty : ProcessTable := ⟨fun _ => none, [], fun h => by cases h⟩

/-- What this very process does. -/
def life (T : ProcessTable) (p : Process) : Option Life :=
  match T.entry p.pid with
  | some (start, life) => if start = p.start then some life else none
  | none => none

/-- It runs. -/
def Alive (T : ProcessTable) (p : Process) : Prop := T.life p = some .running

/-- It runs or is a zombie. -/
def Present (T : ProcessTable) (p : Process) : Prop := T.life p ≠ none

instance (T : ProcessTable) (p : Process) : Decidable (T.Alive p) :=
  inferInstanceAs (Decidable (T.life p = some .running))

instance (T : ProcessTable) (p : Process) : Decidable (T.Present p) :=
  inferInstanceAs (Decidable (T.life p ≠ none))

/-- Write an entry. -/
def put (T : ProcessTable) (p : Process) (life : Life) : ProcessTable where
  entry := Function.update T.entry p.pid (some (p.start, life))
  used := T.used.insert p
  known := by
    intro pid start life' hentry
    by_cases hpid : pid = p.pid
    · subst hpid
      rw [Function.update_self] at hentry
      cases hentry
      exact List.mem_insert_self
    · rw [Function.update_of_ne hpid] at hentry
      exact List.mem_insert_of_mem (T.known hentry)

/-- Clear the entry of a number. -/
def clear (T : ProcessTable) (pid : ℕ) : ProcessTable where
  entry := Function.update T.entry pid none
  used := T.used
  known := by
    intro pid' start life hentry
    by_cases hpid : pid' = pid
    · subst hpid
      rw [Function.update_self] at hentry
      cases hentry
    · rw [Function.update_of_ne hpid] at hentry
      exact T.known hentry

/-- A process is started: its number is free, and it is not one there was before. -/
def spawn (T : ProcessTable) (p : Process) : Option ProcessTable :=
  if T.entry p.pid = none ∧ p ∉ T.used then some (T.put p .running) else none

/-- It exits. -/
def exit (T : ProcessTable) (p : Process) (code : ℤ) : Option ProcessTable :=
  if T.Alive p then some (T.put p (.zombie code)) else none

/-- Its parent has waited for it. -/
def bury (T : ProcessTable) (p : Process) : ProcessTable :=
  if T.Present p then T.clear p.pid else T

/-! ### What becomes of a process -/

variable {T T' T'' : ProcessTable} {p q : Process} {code : ℤ}

theorem Alive.present (h : T.Alive p) : T.Present p := by
  rw [Present, h]
  exact Option.some_ne_none _

theorem entry_of_life {life : Life} (h : T.life p = some life) :
    T.entry p.pid = some (p.start, life) := by
  unfold ProcessTable.life at h
  split at h
  · next start life' hentry =>
    split at h
    · next hstart =>
      cases h
      rw [hentry, hstart]
    · cases h
  · cases h

theorem life_of_entry {life : Life} (h : T.entry p.pid = some (p.start, life)) :
    T.life p = some life := by
  rw [ProcessTable.life, h]
  exact if_pos rfl

theorem life_eq_none (h : T.entry p.pid = none) : T.life p = none := by
  rw [ProcessTable.life, h]

theorem Present.mem_used (h : T.Present p) : p ∈ T.used := by
  obtain ⟨life, hlife⟩ := Option.ne_none_iff_exists'.mp h
  exact T.known (entry_of_life hlife)

/-- One process at a time has a number. -/
theorem Present.eq_of_pid (h : T.Present p) (h' : T.Present q) (hpid : p.pid = q.pid) : p = q := by
  obtain ⟨life, hlife⟩ := Option.ne_none_iff_exists'.mp h
  obtain ⟨life', hlife'⟩ := Option.ne_none_iff_exists'.mp h'
  have hp := entry_of_life hlife
  have hq := entry_of_life hlife'
  rw [hpid, hq] at hp
  cases p
  cases q
  cases hp
  cases hpid
  rfl

/-- Entries of other numbers are not touched. -/
theorem life_congr (h : T'.entry p.pid = T.entry p.pid) : T'.life p = T.life p := by
  rw [ProcessTable.life, ProcessTable.life, h]

theorem life_put_self (life : Life) : (T.put p life).life p = some life :=
  life_of_entry (Function.update_self _ _ _)

theorem life_put {life : Life} (hown : ∀ q, T.Present q → q.pid = p.pid → q = p) (hne : q ≠ p) :
    (T.put p life).life q = T.life q := by
  by_cases hpid : q.pid = p.pid
  · have hgone : T.life q = none := by
      by_contra hpresent
      exact hne (hown q hpresent hpid)
    have hstart : p.start ≠ q.start := by
      intro heq
      cases p
      cases q
      cases hpid
      cases heq
      exact hne rfl
    rw [hgone, ProcessTable.life, hpid]
    change (match Function.update T.entry p.pid (some (p.start, life)) p.pid with
      | some (start, life) => if start = q.start then some life else none
      | none => none) = none
    rw [Function.update_self]
    exact if_neg hstart
  · exact life_congr (Function.update_of_ne hpid _ _)

theorem spawn_eq (h : T.spawn p = some T') :
    T.life p = none ∧ p ∉ T.used ∧ T'.used = p :: T.used ∧ T'.life p = some .running ∧
      ∀ q ≠ p, T'.life q = T.life q := by
  unfold spawn at h
  split at h
  · next hfree =>
    cases h
    refine ⟨life_eq_none hfree.1, hfree.2, List.insert_of_not_mem hfree.2, life_put_self _, ?_⟩
    refine fun q hne => life_put (fun q hq hpid => absurd ?_ hq) hne
    exact life_eq_none (hpid ▸ hfree.1)
  · cases h

theorem exit_eq (h : T.exit p code = some T') :
    T.Alive p ∧ T'.used = T.used ∧ T'.life p = some (.zombie code) ∧
      ∀ q ≠ p, T'.life q = T.life q := by
  unfold exit at h
  split at h
  · next halive =>
    cases h
    exact ⟨halive, List.insert_of_mem halive.present.mem_used, life_put_self _,
      fun q hne => life_put (fun q hq hpid => hq.eq_of_pid halive.present hpid) hne⟩
  · cases h

theorem bury_used (T : ProcessTable) (p : Process) : (T.bury p).used = T.used := by
  unfold bury
  split <;> rfl

theorem life_bury_self (T : ProcessTable) (p : Process) : (T.bury p).life p = none := by
  unfold bury
  split
  · exact life_eq_none (Function.update_self _ _ _)
  · next hgone => exact not_not.mp hgone

theorem life_bury_of_ne (hne : q ≠ p) : (T.bury p).life q = T.life q := by
  unfold bury
  split
  · next hpresent =>
    by_cases hpid : q.pid = p.pid
    · have hgone : T.life q = none := by
        by_contra hq
        exact hne (Present.eq_of_pid hq hpresent hpid)
      rw [hgone]
      refine life_eq_none ?_
      rw [hpid]
      exact Function.update_self _ _ _
    · exact life_congr (Function.update_of_ne hpid _ _)
  · rfl

/-! ### Time -/

/-- `T'` is what `T` has become. -/
structure Later (T T' : ProcessTable) : Prop where
  used : T.used ⊆ T'.used
  /-- What runs later did run. -/
  alive : ∀ {p}, p ∈ T.used → T'.Alive p → T.Alive p
  /-- What is there later was there. -/
  present : ∀ {p}, p ∈ T.used → T'.Present p → T.Present p

theorem Later.refl (T : ProcessTable) : T.Later T :=
  ⟨List.Subset.refl _, fun _ h => h, fun _ h => h⟩

theorem Later.trans (h : T.Later T') (h' : T'.Later T'') : T.Later T'' where
  used := List.Subset.trans h.used h'.used
  alive hp halive := h.alive hp (h'.alive (h.used hp) halive)
  present hp hpresent := h.present hp (h'.present (h.used hp) hpresent)

/-- A change at one process. -/
theorem Later.of_change (hused : T.used ⊆ T'.used)
    (hself : p ∈ T.used → (T'.Alive p → T.Alive p) ∧ (T'.Present p → T.Present p))
    (hother : ∀ q ≠ p, T'.life q = T.life q) : T.Later T' where
  used := hused
  alive := by
    intro q hq halive
    by_cases heq : q = p
    · subst heq
      exact (hself hq).1 halive
    · rw [Alive, ← hother q heq]
      exact halive
  present := by
    intro q hq hpresent
    by_cases heq : q = p
    · subst heq
      exact (hself hq).2 hpresent
    · rw [Present, ← hother q heq]
      exact hpresent

theorem spawn_later (h : T.spawn p = some T') : T.Later T' := by
  obtain ⟨-, hnew, hused, -, hother⟩ := spawn_eq h
  refine .of_change (p := p) ?_ (fun hp => absurd hp hnew) hother
  rw [hused]
  exact List.subset_cons_self _ _

theorem exit_later (h : T.exit p code = some T') : T.Later T' := by
  obtain ⟨halive, hused, hself, hother⟩ := exit_eq h
  refine .of_change (p := p) ?_ (fun _ => ⟨fun _ => halive, fun _ => halive.present⟩) hother
  rw [hused]
  exact List.Subset.refl _

theorem bury_later (T : ProcessTable) (p : Process) : T.Later (T.bury p) := by
  have hself := life_bury_self T p
  refine .of_change (p := p) ?_ (fun _ => ⟨fun halive => ?_, fun h => ?_⟩)
    fun q hne => life_bury_of_ne hne
  · rw [bury_used]
    exact List.Subset.refl _
  · rw [Alive, hself] at halive
    cases halive
  · exact absurd hself h

end ProcessTable
end Framework
