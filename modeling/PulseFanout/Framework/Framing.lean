import PulseFanout.Framework.Codec

/-!
# Framed byte streams

A `Framing` cuts a byte stream into items: its reader says of the bytes that have come so far
that they are too few, that they are not a frame, or what the first item is and what follows.
The laws are those of a self-delimiting code. `Framing.ofCodec` frames values of a fixed size,
`Framing.sized` frames a fixed-size header that announces the length of what follows.

`encode` is a run of items; what can be read from a piece of such a run is its first item or nothing
(`get_encode`).

`Flow` is what a connection carries: the bytes in flight are a run of items that are all
`Good`, cut short at any point if the link is down and complete if it is up. Writing an item,
cutting the bytes and reading an item keep it (`Flow.push`, `Flow.cut`, `Flow.get_item`); so
whatever is read from a connection was written to it, wherever it was cut.
-/

namespace Framework

/-- What a reader makes of the bytes that have come. -/
inductive Framed (α : Type)
  /-- Too few to tell. -/
  | short
  /-- Not a frame. -/
  | bad
  /-- An item and what follows it. -/
  | item (a : α) (rest : List Byte)

/-- A self-delimiting code for items. -/
structure Framing (α : Type) where
  /-- The items that can be framed. -/
  Valid : α → Prop
  /-- Write an item. -/
  put : α → List Byte
  /-- Read the first item. -/
  get : List Byte → Framed α
  /-- Nothing is too few. -/
  get_nil : get [] = .short
  /-- Reading undoes writing. -/
  get_put : ∀ {a}, Valid a → ∀ rest, get (put a ++ rest) = .item a rest
  /-- A piece of an item is too few. -/
  get_piece : ∀ {a bs}, Valid a → bs <+: put a → bs ≠ put a → get bs = .short

namespace Framing

variable {α β : Type}

/-- Values of a fixed size. -/
def ofCodec (c : Codec α) (hpos : 0 < c.size) : Framing α where
  Valid := fun _ => True
  put := c.put
  get := fun bs =>
    match c.get bs with
    | none => .short
    | some (a, rest) => .item a rest
  get_nil := by rw [c.get_eq_none (by exact hpos)]
  get_put := fun _ rest => by rw [c.get_put]
  get_piece := fun {a bs} _ hpre hne => by
    have hlt : bs.length < c.size := by
      rw [← c.put_length a]
      exact lt_of_le_of_ne hpre.length_le fun h => hne (hpre.eq_of_length h)
    rw [c.get_eq_none hlt]

/-- A header followed by as many bytes as it announces; `none` refuses the header. -/
def sized (c : Codec β) (hpos : 0 < c.size) (announced : β → Option ℕ) :
    Framing (β × List Byte) where
  Valid := fun a => announced a.1 = some a.2.length
  put := fun a => c.put a.1 ++ a.2
  get := fun bs =>
    match c.get bs with
    | none => .short
    | some (header, rest) =>
      match announced header with
      | none => .bad
      | some n => if rest.length < n then .short else .item (header, rest.take n) (rest.drop n)
  get_nil := by rw [c.get_eq_none (by exact hpos)]
  get_put := fun {a} hvalid rest => by
    rw [List.append_assoc, c.get_put]
    dsimp only
    rw [hvalid]
    dsimp only
    rw [if_neg (by rw [List.length_append]; omega), List.take_left, List.drop_left]
  get_piece := fun {a bs} hvalid hpre hne => by
    by_cases hlt : bs.length < c.size
    · rw [c.get_eq_none hlt]
    · -- the header is complete, so what is missing is missing from the rest
      have hhead : c.put a.1 <+: bs := by
        refine List.prefix_of_prefix_length_le (List.prefix_append _ _) hpre ?_
        rw [c.put_length]
        omega
      obtain ⟨q, rfl⟩ := hhead
      have hq : q <+: a.2 := (List.prefix_append_right_inj _).mp hpre
      have hshort : q.length < a.2.length :=
        lt_of_le_of_ne hq.length_le fun h => hne (by rw [hq.eq_of_length h])
      rw [c.get_put]
      dsimp only
      rw [hvalid]
      dsimp only
      rw [if_pos hshort]

section Sized

variable (c : Codec β) (hpos : 0 < c.size) (announced : β → Option ℕ) {bs rest : List Byte}
  {header : β}

theorem sized_get_short (h : bs.length < c.size) : (sized c hpos announced).get bs = .short := by
  unfold sized
  dsimp only
  rw [c.get_eq_none h]

theorem sized_get_bad (hget : c.get bs = some (header, rest)) (h : announced header = none) :
    (sized c hpos announced).get bs = .bad := by
  unfold sized
  dsimp only
  rw [hget]
  dsimp only
  rw [h]

theorem sized_get (hget : c.get bs = some (header, rest)) {n : ℕ}
    (h : announced header = some n) :
    (sized c hpos announced).get bs =
      if rest.length < n then .short else .item (header, rest.take n) (rest.drop n) := by
  unfold sized
  dsimp only
  rw [hget]
  dsimp only
  rw [h]

/-- A reader that takes fewer headers reads the same items. -/
theorem sized_get_of_stricter {announced' : β → Option ℕ}
    (hstrict : ∀ header n, announced header = some n → announced' header = some n)
    {a : β × List Byte} (h : (sized c hpos announced).get bs = .item a rest) :
    (sized c hpos announced').get bs = .item a rest := by
  unfold sized at h ⊢
  dsimp only at h ⊢
  split at h
  · cases h
  · split at h
    · cases h
    · next n hsize =>
      rw [hstrict _ n hsize]
      exact h

end Sized

/-- An item takes at least one byte. -/
theorem put_ne_nil (F : Framing α) {a : α} (hvalid : F.Valid a) : F.put a ≠ [] := by
  intro hnil
  have hget := F.get_put hvalid []
  rw [hnil, List.append_nil, F.get_nil] at hget
  cases hget

/-- From a piece of one item no more than that item is read. -/
theorem get_of_prefix (F : Framing α) {a b : α} {bs rest : List Byte} (hvalid : F.Valid a)
    (hpre : bs <+: F.put a) (hget : F.get bs = .item b rest) : b = a ∧ rest = [] := by
  by_cases hwhole : bs = F.put a
  · have hput := F.get_put hvalid []
    rw [List.append_nil, ← hwhole, hget] at hput
    injection hput with hb hr
    exact ⟨hb, hr⟩
  · rw [F.get_piece hvalid hpre hwhole] at hget
    cases hget

/-! ### Runs of items -/

/-- Items one after the other. -/
def encode (F : Framing α) (items : List α) : List Byte := (items.map F.put).flatten

theorem encode_append (F : Framing α) (items more : List α) :
    F.encode (items ++ more) = F.encode items ++ F.encode more := by
  rw [encode, List.map_append, List.flatten_append]
  rfl

theorem encode_mono (F : Framing α) {items all : List α} (h : items <+: all) :
    F.encode items <+: F.encode all := by
  obtain ⟨more, rfl⟩ := h
  rw [encode_append]
  exact List.prefix_append _ _

/-- **Reading from a piece of a run**: the first item, if all of it is there, and otherwise
nothing. -/
theorem get_encode (F : Framing α) {a : α} {items : List α} {bs : List Byte}
    (hvalid : F.Valid a) (hpre : bs <+: F.encode (a :: items)) :
    (∃ rest, bs = F.put a ++ rest ∧ F.get bs = .item a rest ∧ rest <+: F.encode items) ∨
      ¬ F.put a <+: bs ∧ F.get bs = .short := by
  by_cases hwhole : F.put a <+: bs
  · obtain ⟨rest, rfl⟩ := hwhole
    exact .inl ⟨rest, rfl, F.get_put hvalid rest, (List.prefix_append_right_inj _).mp hpre⟩
  · -- the cut lies inside the first item
    have hpiece : bs <+: F.put a :=
      (List.prefix_or_prefix_of_prefix hpre (List.prefix_append _ _)).resolve_right hwhole
    exact .inr ⟨hwhole, F.get_piece hvalid hpiece fun heq => hwhole (heq ▸ List.prefix_rfl)⟩

end Framing

/-! ### What is in flight -/

variable {α : Type} {F : Framing α} {Good : α → Prop} {link : Bool} {bytes : List Byte}

/-- The bytes are those of `Good` items, cut short only if the link is down. -/
def Flow (F : Framing α) (Good : α → Prop) (link : Bool) (bytes : List Byte) : Prop :=
  ∃ items : List α, (∀ a ∈ items, F.Valid a ∧ Good a) ∧ bytes <+: (items.map F.put).flatten ∧
    (link = true → bytes = (items.map F.put).flatten)

namespace Flow

theorem nil : Flow F Good link [] :=
  ⟨[], fun _ h => absurd h List.not_mem_nil, List.nil_prefix, fun _ => rfl⟩

theorem push (h : Flow F Good true bytes) {a : α} (hvalid : F.Valid a) (hgood : Good a) :
    Flow F Good true (bytes ++ F.put a) := by
  obtain ⟨items, hitems, -, hall⟩ := h
  have hflat : bytes ++ F.put a = ((items ++ [a]).map F.put).flatten := by
    rw [List.map_append, List.flatten_append, ← hall rfl, List.map_singleton,
      List.flatten_singleton]
  refine ⟨items ++ [a], fun b hb => ?_, hflat ▸ List.prefix_rfl, fun _ => hflat⟩
  rcases List.mem_append.mp hb with hb | hb
  · exact hitems b hb
  · rw [List.mem_singleton.mp hb]
    exact ⟨hvalid, hgood⟩

/-- The link goes down and the bytes after some point are lost. -/
theorem cut (h : Flow F Good link bytes) (n : ℕ) : Flow F Good false (bytes.take n) := by
  obtain ⟨items, hitems, hpre, -⟩ := h
  exact ⟨items, hitems, (List.take_prefix _ _).trans hpre, fun hf => (nomatch hf)⟩

theorem mono {Good' : α → Prop} (h : Flow F Good link bytes) (himp : ∀ a, Good a → Good' a) :
    Flow F Good' link bytes := by
  obtain ⟨items, hitems, hrest⟩ := h
  exact ⟨items, fun a ha => ⟨(hitems a ha).1, himp a (hitems a ha).2⟩, hrest⟩

/-- What the reader can say of a flow. -/
theorem get_cases (h : Flow F Good link bytes) :
    F.get bytes = .short ∨
      ∃ a rest, F.get bytes = .item a rest ∧ F.Valid a ∧ Good a ∧ Flow F Good link rest := by
  obtain ⟨items, hitems, hpre, hall⟩ := h
  cases items with
  | nil =>
    rw [List.prefix_nil.mp hpre]
    exact Or.inl F.get_nil
  | cons a items =>
    obtain ⟨hvalid, hgood⟩ := hitems a List.mem_cons_self
    rcases F.get_encode hvalid hpre with ⟨rest, rfl, hget, hrest⟩ | ⟨-, hget⟩
    · refine Or.inr ⟨a, rest, hget, hvalid, hgood, items, ?_, hrest, ?_⟩
      · exact fun b hb => hitems b (List.mem_cons_of_mem _ hb)
      · exact fun hl => List.append_cancel_left (hall hl)
    · exact Or.inl hget

/-- **Whatever is read was written.** -/
theorem get_item (h : Flow F Good link bytes) {a : α} {rest : List Byte}
    (hget : F.get bytes = .item a rest) : F.Valid a ∧ Good a ∧ Flow F Good link rest := by
  rcases h.get_cases with hshort | ⟨b, more, hitem, hrest⟩
  · rw [hshort] at hget
    cases hget
  · rw [hitem] at hget
    injection hget with ha hr
    rw [← ha, ← hr]
    exact hrest

end Flow
end Framework
