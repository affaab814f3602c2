import Mathlib.Data.List.Basic
import Mathlib.Data.List.Nodup

/-!
# Bounded registries

A table from keys to values that admits a new key while it has fewer than `limit` of them and
never removes one. That its keys are different and at most `limit` is part of the type, so
what is left to prove about a program that keeps such a table is what happens to the values:
`find_put`, `find_put_ne`, `find_map` and, for the operation that looks a key up and admits it
when it is new, `getOrAdd_cases`.
-/

namespace Framework

variable {κ α : Type} [DecidableEq κ] {limit : ℕ}

/-- A table of at most `limit` keys. -/
structure Registry (κ α : Type) (limit : ℕ) where
  /-- Keys and values, oldest key first. -/
  entries : List (κ × α)
  /-- No key occurs twice. -/
  nodup : (entries.map Prod.fst).Nodup
  /-- The limit is kept. -/
  bounded : entries.length ≤ limit

namespace Registry

/-- No keys. -/
def empty : Registry κ α limit := ⟨[], List.nodup_nil, Nat.zero_le _⟩

/-- The keys, oldest first. -/
def keys (R : Registry κ α limit) : List κ := R.entries.map Prod.fst

/-- The number of keys. -/
def size (R : Registry κ α limit) : ℕ := R.entries.length

/-- The value of a key. -/
def find (R : Registry κ α limit) (key : κ) : Option α :=
  (R.entries.find? fun e => e.1 = key).map Prod.snd

/-- Writing a value leaves the column of keys alone. -/
private theorem fst_write (entries : List (κ × α)) (key : κ) (a : α) :
    (entries.map fun e => if e.1 = key then (e.1, a) else e).map Prod.fst =
      entries.map Prod.fst := by
  rw [List.map_map]
  refine List.map_congr_left fun e _ => ?_
  rw [Function.comp_apply]
  split <;> rfl

/-- Change the value of a key that is there. -/
def put (R : Registry κ α limit) (key : κ) (a : α) : Registry κ α limit where
  entries := R.entries.map fun e => if e.1 = key then (e.1, a) else e
  nodup := by rw [fst_write]; exact R.nodup
  bounded := by rw [List.length_map]; exact R.bounded

/-- Change every value. -/
def map (R : Registry κ α limit) (f : α → α) : Registry κ α limit where
  entries := R.entries.map fun e => (e.1, f e.2)
  nodup := by
    rw [List.map_map]
    exact R.nodup
  bounded := by rw [List.length_map]; exact R.bounded

/-- Admit a new key. -/
def add (R : Registry κ α limit) (key : κ) (a : α) (hnew : key ∉ R.keys)
    (hroom : R.size < limit) : Registry κ α limit where
  entries := R.entries ++ [(key, a)]
  nodup := by
    rw [List.map_append, List.map_singleton]
    refine List.nodup_append.mpr ⟨R.nodup, List.nodup_singleton _, ?_⟩
    intro x hx y hy hxy
    rw [hxy, List.mem_singleton.mp hy] at hx
    exact hnew hx
  bounded := by
    rw [List.length_append, List.length_singleton]
    exact hroom

/-- Set the value of a key, admitting it if it is new and there is room. -/
def set (R : Registry κ α limit) (key : κ) (a : α) (hroom : key ∈ R.keys ∨ R.size < limit) :
    Registry κ α limit :=
  if hmem : key ∈ R.keys then R.put key a else R.add key a hmem (hroom.resolve_left hmem)

omit [DecidableEq κ] in
theorem size_le (R : Registry κ α limit) : R.size ≤ limit := R.bounded

/-! ### Looking a key up -/

section Find

variable (R : Registry κ α limit) {key key' : κ}

theorem find_eq_none : R.find key = none ↔ key ∉ R.keys := by
  rw [find, Option.map_eq_none_iff, List.find?_eq_none, keys]
  simp only [decide_eq_true_eq, List.mem_map, not_exists, not_and]

theorem mem_keys_of_find {a : α} (h : R.find key = some a) : key ∈ R.keys := by
  by_contra hnot
  rw [R.find_eq_none.mpr hnot] at h
  cases h

@[simp] theorem keys_put (a : α) : (R.put key a).keys = R.keys :=
  fst_write R.entries key a

omit [DecidableEq κ] in
@[simp] theorem keys_map (f : α → α) : (R.map f).keys = R.keys := by
  rw [keys, keys, map, List.map_map]
  rfl

theorem find_put (hmem : key ∈ R.keys) (a : α) : (R.put key a).find key = some a := by
  have hpred : ((fun e : κ × α => decide (e.1 = key)) ∘
      fun e => if e.1 = key then (e.1, a) else e) = fun e => decide (e.1 = key) := by
    funext e
    rw [Function.comp_apply]
    split <;> rfl
  rw [find, put, List.find?_map, hpred]
  cases hfind : R.entries.find? fun e => e.1 = key with
  | none =>
    refine absurd hmem (R.find_eq_none.mp ?_)
    rw [find, hfind]
    rfl
  | some e =>
    have hkey : e.1 = key := by simpa using List.find?_some hfind
    rw [Option.map_some, Option.map_some, if_pos hkey]

theorem find_put_ne (hne : key' ≠ key) (a : α) : (R.put key a).find key' = R.find key' := by
  have hpred : ((fun e : κ × α => decide (e.1 = key')) ∘
      fun e => if e.1 = key then (e.1, a) else e) = fun e => decide (e.1 = key') := by
    funext e
    rw [Function.comp_apply]
    split <;> rfl
  rw [find, find, put, List.find?_map, hpred]
  cases hfind : R.entries.find? fun e => e.1 = key' with
  | none => rfl
  | some e =>
    have hkey : e.1 = key' := by simpa using List.find?_some hfind
    rw [Option.map_some, Option.map_some, if_neg (hkey ▸ hne), Option.map_some]

theorem find_map (f : α → α) : (R.map f).find key = (R.find key).map f := by
  rw [find, find, map, List.find?_map, Option.map_map, Option.map_map]
  rfl

theorem find_add {hnew : key ∉ R.keys} {hroom : R.size < limit} (a : α) :
    (R.add key a hnew hroom).find key = some a := by
  have hnone := R.find_eq_none.mpr hnew
  rw [find, Option.map_eq_none_iff] at hnone
  rw [find, add, List.find?_append, hnone]
  simp

theorem find_add_ne {hnew : key ∉ R.keys} {hroom : R.size < limit} (hne : key' ≠ key) (a : α) :
    (R.add key a hnew hroom).find key' = R.find key' := by
  rw [find, find, add, List.find?_append]
  cases R.entries.find? fun e => e.1 = key' with
  | none => simp [Ne.symm hne]
  | some e => rfl

theorem find_set (hroom : key ∈ R.keys ∨ R.size < limit) (a : α) :
    (R.set key a hroom).find key = some a := by
  unfold set
  split
  · next hmem => exact R.find_put hmem a
  · exact R.find_add a

theorem find_set_ne (hroom : key ∈ R.keys ∨ R.size < limit) (hne : key' ≠ key) (a : α) :
    (R.set key a hroom).find key' = R.find key' := by
  unfold set
  split
  · exact R.find_put_ne hne a
  · exact R.find_add_ne hne a

theorem mem_keys_set (hroom : key ∈ R.keys ∨ R.size < limit) (a : α) :
    key' ∈ (R.set key a hroom).keys ↔ key' ∈ R.keys ∨ key' = key := by
  unfold set
  split
  · next hmem =>
    rw [keys_put]
    refine (or_iff_left_of_imp ?_).symm
    rintro rfl
    exact hmem
  · rw [keys, add, List.map_append, List.mem_append]
    exact or_congr Iff.rfl List.mem_singleton

/-- What is in the table is found. -/
theorem find_of_mem {a : α} (h : (key, a) ∈ R.entries) : R.find key = some a := by
  have hnodup := R.nodup
  unfold find
  generalize R.entries = entries at h hnodup ⊢
  induction entries with
  | nil => cases h
  | cons e entries ih =>
    rw [List.map_cons, List.nodup_cons] at hnodup
    rcases List.mem_cons.mp h with rfl | hrest
    · rw [List.find?_cons_of_pos (by simp)]
      rfl
    · have hne : e.1 ≠ key := by
        rintro rfl
        exact hnodup.1 (List.mem_map.mpr ⟨_, hrest, rfl⟩)
      rw [List.find?_cons_of_neg (by simpa using hne)]
      exact ih hrest hnodup.2

end Find

/-! ### Admission -/

/-- Look a key up, admitting it with the value `fresh` if it is new; `none` if it is new and
the registry is full. -/
def getOrAdd (R : Registry κ α limit) (key : κ) (fresh : α) :
    Option (α × Registry κ α limit) :=
  if hmem : key ∈ R.keys then (R.find key).map fun a => (a, R)
  else if hroom : R.size < limit then some (fresh, R.add key fresh hmem hroom)
  else none

/-- What a successful lookup returns. -/
theorem getOrAdd_cases {R R' : Registry κ α limit} {key : κ} {fresh a : α}
    (h : R.getOrAdd key fresh = some (a, R')) :
    R'.find key = some a ∧ R.keys <+: R'.keys ∧
      ((R.find key = some a ∧ R' = R) ∨
        (R.find key = none ∧ a = fresh ∧ ∀ key', key' ≠ key → R'.find key' = R.find key')) := by
  unfold getOrAdd at h
  split at h
  · obtain ⟨a', hfind, heq⟩ := Option.map_eq_some_iff.mp h
    obtain ⟨rfl, rfl⟩ := Prod.mk.inj heq
    exact ⟨hfind, List.prefix_rfl, Or.inl ⟨hfind, rfl⟩⟩
  · next hnew =>
    split at h
    · obtain ⟨rfl, rfl⟩ := Prod.mk.inj (Option.some.inj h)
      refine ⟨R.find_add fresh, ⟨[key], ?_⟩, Or.inr ⟨R.find_eq_none.mpr hnew, rfl, ?_⟩⟩
      · rw [keys, keys, add, List.map_append, List.map_singleton]
      · exact fun key' hne => R.find_add_ne hne fresh
    · cases h

/-- When a lookup succeeds. -/
theorem getOrAdd_isSome (R : Registry κ α limit) (key : κ) (fresh : α) :
    (R.getOrAdd key fresh).isSome = true ↔ key ∈ R.keys ∨ R.size < limit := by
  unfold getOrAdd
  split
  · next hmem =>
    refine ⟨fun _ => Or.inl hmem, fun _ => ?_⟩
    rw [Option.isSome_map, Option.isSome_iff_ne_none, Ne, find_eq_none]
    exact not_not.mpr hmem
  · next hnew =>
    split
    · next hroom => exact ⟨fun _ => Or.inr hroom, fun _ => rfl⟩
    · next hfull => exact ⟨fun h => (nomatch h), fun h => absurd (h.resolve_left hnew) hfull⟩

end Registry
end Framework
