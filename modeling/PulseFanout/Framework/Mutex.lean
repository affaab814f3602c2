import Mathlib.Logic.Function.Basic

/-!
# Robust mutexes

Parties `π` enter and leave critical sections, each guarded by one of the mutexes `κ`. `owner`
is what the mutexes say; `inside` is where the parties are. They may disagree in one direction:
a party that has died inside still owns the mutex, and a robust mutex lets another one in.

`Exclusive` is the other direction, and all that mutual exclusion rests on: a party inside owns
the mutex, so no two are inside at a time (`Exclusive.unique`).
-/

namespace Framework

variable {κ π : Type}

/-- Every party that is inside owns the mutex. -/
def Exclusive (owner : κ → Option π) (inside : π → Option κ) : Prop :=
  ∀ p s, inside p = some s → owner s = some p

namespace Exclusive

variable {owner owner' : κ → Option π} {inside inside' : π → Option κ} {p q : π} {s : κ}

/-- **Mutual exclusion.** -/
theorem unique (h : Exclusive owner inside) (hp : inside p = some s) (hq : inside q = some s) :
    p = q :=
  Option.some.inj ((h p s hp).symm.trans (h q s hq))

/-- Parties move inside, or out without a word. -/
theorem stay (h : Exclusive owner inside) (howner : ∀ s, owner' s = owner s)
    (hinside : ∀ q, inside' q = inside q ∨ inside' q = none) : Exclusive owner' inside' := by
  intro q s hq
  rw [howner]
  rcases hinside q with heq | hnone
  · exact h q s (heq ▸ hq)
  · rw [hnone] at hq
    cases hq

/-- One party gets a mutex that is free, or whose owner has died. -/
theorem acquire (h : Exclusive owner inside) (hfree : ∀ q, owner s = some q → inside q = none)
    (howner : ∀ t, t ≠ s → owner' t = owner t) (hs : owner' s = some p)
    (hinside : ∀ q, q ≠ p → inside' q = inside q) (hp : inside' p = some s) :
    Exclusive owner' inside' := by
  intro q t hq
  by_cases hqp : q = p
  · subst hqp
    rw [hp, Option.some.injEq] at hq
    rw [← hq, hs]
  · rw [hinside q hqp] at hq
    have hown := h q t hq
    -- whoever is inside is alive, so its mutex was not free
    have hts : t ≠ s := by
      rintro rfl
      rw [hfree q hown] at hq
      cases hq
    rw [howner t hts, hown]

/-- One party leaves and gives its mutex back. -/
theorem release (h : Exclusive owner inside) (hp : inside p = some s)
    (howner : ∀ t, t ≠ s → owner' t = owner t) (hinside : ∀ q, q ≠ p → inside' q = inside q)
    (hp' : inside' p = none) : Exclusive owner' inside' := by
  intro q t hq
  have hqp : q ≠ p := by
    rintro rfl
    rw [hp'] at hq
    cases hq
  rw [hinside q hqp] at hq
  have hts : t ≠ s := by
    rintro rfl
    exact hqp (h.unique hq hp)
  rw [howner t hts, h q t hq]

end Exclusive
end Framework
