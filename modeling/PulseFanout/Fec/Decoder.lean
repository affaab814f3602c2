import PulseFanout.Fec.Encoder
import PulseFanout.Metrics.Samples

/-!
# The decoder (`fec.h`, `Decoder`)

A decoder has a fixed number of slots and keeps a generation in slot `gen_id % gens`; a
shard of another generation evicts what the slot holds. A data shard is published at once
and stored, a parity shard is stored, and after either `try_recover` solves for the frames
that are still missing, if enough parity has come.

The publish callback is a function on the caller's state that says whether it succeeded, and
a failure leaves `receive` on the spot, with what it had stored so far. What one generation
does is a function on `Work`: the generation, the decoder's statistics and the caller's
state.
-/

namespace PulseFanout
namespace Fec

open Framework

/-- The callback: the payload, whether it was recovered, the close reason. -/
abbrev Publish (σ : Type) := List Byte → Bool → ℕ → σ → Bool × σ

/-- `fec::Counters` -/
structure Counters where
  parityReceived : ℕ := 0
  recovered : ℕ := 0
  unrecoverableGens : ℕ := 0
  recoveredByK : ℕ := 0
  recoveredByTimeout : ℕ := 0
  recoveredByFlush : ℕ := 0
deriving DecidableEq, Repr

/-- A latency sample and the number of values it was drawn from. -/
structure Latencies where
  values : List ℕ := []
  events : ℕ := 0
deriving DecidableEq, Repr

/-- `metrics::sample(values, latency, ++events)` -/
def Latencies.add (L : Latencies) (latency : ℕ) : Latencies :=
  ⟨Metrics.sample L.values latency (L.events + 1), L.events + 1⟩

/-- What the decoder counts. -/
structure Stats where
  counters : Counters := {}
  recoveryLatencies : Latencies := {}
  recoveryByK : Latencies := {}
  recoveryByTimeout : Latencies := {}
  recoveryByFlush : Latencies := {}
deriving DecidableEq, Repr

/-- `Decoder::Generation` -/
structure Generation where
  active : Bool := false
  seenAny : Bool := false
  parityReceived : Bool := false
  recovered : Bool := false
  unrecoverableCounted : Bool := false
  genId : BitVec 32 := 0
  k : ℕ := 0
  parityCount : ℕ := 0
  closeReason : ℕ := 0
  firstNs : ℕ := 0
  data : List (List Byte) := []
  parities : List (List Byte) := []
  received : List Bool := []
deriving DecidableEq, Repr

/-- What `receive` works on once it has the slot. -/
structure Work (σ : Type) where
  gen : Generation
  stats : Stats
  out : σ

variable {σ : Type}

/-! ### Recovery -/

namespace Generation

/-- The first loop of `try_recover`: how many of the `k` frames have not come. -/
def missing (g : Generation) : ℕ :=
  (List.range g.k).foldl (fun missing i => if g.received.getD i false then missing - 1 else missing)
    g.k

/-- `absent`: which ones. -/
def absent (g : Generation) : List ℕ :=
  (List.range g.k).filter fun i => !g.received.getD i false

theorem foldl_missing (p : ℕ → Bool) (l : List ℕ) (m : ℕ) (h : l.length ≤ m) :
    l.foldl (fun missing i => if p i then missing - 1 else missing) m =
      m - l.length + (l.filter fun i => !p i).length := by
  induction l generalizing m with
  | nil => simp
  | cons i l ih =>
    rw [List.length_cons] at h
    rw [List.foldl_cons, ih _ (by split <;> omega), List.filter_cons]
    cases p i
    · simp only [Bool.false_eq_true, if_false, Bool.not_false, if_true, List.length_cons]
      omega
    · simp only [if_true, Bool.not_true, Bool.false_eq_true, if_false, List.length_cons]
      omega

theorem missing_eq (g : Generation) : g.missing = g.absent.length := by
  rw [missing, foldl_missing _ _ _ (by rw [List.length_range]), List.length_range, Nat.sub_self,
    Nat.zero_add, absent]

/-- `rows`: the parity shards that have come. -/
def rows (g : Generation) : List ℕ :=
  (List.range g.parities.length).filter fun i => !(g.parities.getD i []).isEmpty

/-- `for j < data[c].size(): rhs[r][j] ^= mul(factor, data[c][j])` -/
def addShard (factor : Byte) (acc shard : List Byte) : List Byte :=
  acc.mapIdx fun j x => if j < shard.length then x ^^^ mul factor (shard.getD j 0#8) else x

theorem addShard_length (factor : Byte) (acc shard : List Byte) :
    (addShard factor acc shard).length = acc.length := List.length_mapIdx

/-- What column `c` does to a row of `rhs`: the contribution of a frame at hand is taken out.
`none` is the `return false` on one longer than the parity. -/
def subtract (g : Generation) (width row : ℕ) (acc : List Byte) (c : ℕ) : Option (List Byte) :=
  if g.received.getD c false then
    if (g.data.getD c []).length > width then none
    else some (addShard (coefficient row c) acc (g.data.getD c []))
  else some acc

/-- One row of `rhs`. -/
def syndrome (g : Generation) (width row : ℕ) : Option (List Byte) :=
  (List.range g.k).foldlM (g.subtract width row) (g.parities.getD row [])

/-- `if (gen.k == 0 || k < gen.k) gen.k = k` -/
def shrink (g : Generation) (k : ℕ) : Generation :=
  if g.k = 0 ∨ k < g.k then { g with k := k } else g

/-- `resize` of the two vectors to `k`, if they are shorter. -/
def resize (g : Generation) : Generation :=
  if g.data.length < g.k then
    { g with
      data := g.data ++ List.replicate (g.k - g.data.length) []
      received := g.received ++ List.replicate (g.k - g.received.length) false }
  else g

/-- `ensure` -/
def ensure (g : Generation) (k : ℕ) : Generation := (g.shrink k).resize

theorem shrink_eq (g : Generation) (k : ℕ) :
    g.shrink k = { g with k := if g.k = 0 ∨ k < g.k then k else g.k } := by
  unfold shrink
  split <;> rfl

theorem resize_k (g : Generation) : g.resize.k = g.k := by
  unfold resize
  split <;> rfl

theorem ensure_k (g : Generation) (k : ℕ) :
    (g.ensure k).k = if g.k = 0 ∨ k < g.k then k else g.k := by
  rw [ensure, resize_k, shrink_eq]

/-- `ensure` lowers `k`, and makes the vectors no shorter than it. -/
theorem ensure_eq (g : Generation) (k : ℕ) (hlen : g.data.length = g.received.length) :
    g.ensure k = { g with
      k := if g.k = 0 ∨ k < g.k then k else g.k
      data := g.data ++
        List.replicate ((if g.k = 0 ∨ k < g.k then k else g.k) - g.data.length) []
      received := g.received ++
        List.replicate ((if g.k = 0 ∨ k < g.k then k else g.k) - g.received.length) false } := by
  rw [ensure, shrink_eq, resize]
  generalize (if g.k = 0 ∨ k < g.k then k else g.k) = k'
  dsimp only
  split
  · rfl
  · next h =>
    have hle := Nat.le_of_not_lt h
    rw [Nat.sub_eq_zero_of_le hle, Nat.sub_eq_zero_of_le (hlen ▸ hle)]
    simp

end Generation

/-- The length check on a recovered block. -/
def lengthOk (width : ℕ) (block : List Byte) : Bool :=
  getU16 block != 0 && getU16 block ≤ Wire.maxFrame && getU16 block + 2 ≤ width

/-- The counters of one recovered frame. -/
def Counters.countRecovered (c : Counters) (reason : ℕ) : Counters :=
  let c := { c with recovered := c.recovered + 1 }
  if reason = 0 then { c with recoveredByK := c.recoveredByK + 1 }
  else if reason = 1 then { c with recoveredByTimeout := c.recoveredByTimeout + 1 }
  else { c with recoveredByFlush := c.recoveredByFlush + 1 }

/-- The latency samples of one recovered generation. -/
def Stats.countLatency (st : Stats) (reason latency : ℕ) : Stats :=
  let st := { st with recoveryLatencies := st.recoveryLatencies.add latency }
  if reason = 0 then { st with recoveryByK := st.recoveryByK.add latency }
  else if reason = 1 then { st with recoveryByTimeout := st.recoveryByTimeout.add latency }
  else { st with recoveryByFlush := st.recoveryByFlush.add latency }

/-- The loop that publishes the recovered blocks. -/
def publishRecovered (publish : Publish σ) : List (ℕ × List Byte) → Work σ → Bool × Work σ
  | [], W => (true, W)
  | (i, block) :: rest, W =>
    match publish ((block.drop 2).take (getU16 block)) true W.gen.closeReason W.out with
    | (false, out) => (false, { W with out })
    | (true, out) =>
      publishRecovered publish rest
        { gen := { W.gen with
            received := W.gen.received.set i true
            data := W.gen.data.set i block }
          stats := { W.stats with
            counters := W.stats.counters.countRecovered W.gen.closeReason }
          out }

/-- What is left to do once every missing frame is published. -/
def finishRecovery (now : ℕ) (W : Work σ) : Work σ :=
  let latency := if W.gen.firstNs ≤ now then now - W.gen.firstNs else 0
  { W with
    gen := { W.gen with recovered := true }
    stats := W.stats.countLatency W.gen.closeReason latency }

/-- `try_recover`. Of the two ways `solve` can fail only the missing pivot is a `return false`
of the source; the other, an exception, does not occur since the entry inverted is the pivot
just found. -/
def tryRecover (publish : Publish σ) (now : ℕ) (W : Work σ) : Bool × Work σ :=
  let g := W.gen
  if !g.parityReceived || g.recovered || g.k = 0 then (true, W)
  else if g.missing = 0 then (true, W)
  -- more parity may still come
  else if g.rows.length < g.missing then (true, W)
  else
    let rows := g.rows.take g.missing
    let width := (g.parities.getD (rows.getD 0 0) []).length
    match rows.mapM (g.syndrome width) with
    | none => (false, W)
    | some rhs =>
      match solve g.missing ⟨coefficientTable rows g.absent, rhs⟩ with
      | .error _ => (false, W)
      | .ok S =>
        -- all lengths are checked before the first frame is published
        if S.rhs.all (lengthOk width) then
          match publishRecovered publish (g.absent.zip S.rhs) W with
          | (false, W) => (false, W)
          | (true, W) => (true, finishRecovery now W)
        else (false, W)

/-! ### One shard -/

/-- What `slot` starts for a shard. -/
def Generation.started (genId : BitVec 32) (k now : ℕ) : Generation :=
  { active := true, genId, k, firstNs := now }

/-- `seen_any = true`, and the time of the first shard. -/
def Generation.touch (g : Generation) (now : ℕ) : Generation :=
  { g with seenAny := true, firstNs := if g.firstNs = 0 then now else g.firstNs }

/-- What a parity shard writes of its closure. -/
def Generation.close (g : Generation) (e : Envelope) (now : ℕ) : Generation :=
  { (g.ensure e.k.toNat).touch now with
    closeReason := e.closeReason.toNat
    parityCount := e.parityCount.toNat
    parities := if (g.ensure e.k.toNat).parities.isEmpty then List.replicate 16 []
      else (g.ensure e.k.toNat).parities }

/-- A parity of another width is stored. -/
def Generation.otherWidth (g : Generation) (payload : List Byte) : Bool :=
  g.parities.any fun existing => !existing.isEmpty && existing.length != payload.length

/-- The rest of `receive` for a data shard, once it has the slot. -/
def receiveData (publish : Publish σ) (e : Envelope) (payload : List Byte) (now : ℕ)
    (W : Work σ) : Bool × Work σ :=
  let index := e.index.toNat
  -- without parity every shard announces the same `k`; with it, one announces no fewer
  if e.k.toNat < W.gen.k ∨ (W.gen.parityReceived = false ∧ e.k.toNat ≠ W.gen.k) then (false, W)
  else
    let g := W.gen.ensure e.k.toNat
    if g.k ≤ index then (false, { W with gen := g })
    else
      let g := g.touch now
      -- a frame the callback refuses is not stored
      match publish payload false g.closeReason W.out with
      | (false, out) => (false, { W with gen := g, out })
      | (true, out) =>
        tryRecover publish now
          { W with
            gen := { g with
              data := g.data.set index (protectedFrame payload e.protectedLen.toNat)
              received := g.received.set index true }
            out }

/-- The rest of `receive` for a parity shard, once it has the slot. -/
def receiveParity (publish : Publish σ) (e : Envelope) (payload : List Byte) (now : ℕ)
    (W : Work σ) : Bool × Work σ :=
  -- the closure is checked before the dimensions change
  if W.gen.parityReceived ∧ (W.gen.k ≠ e.k.toNat ∨ W.gen.parityCount ≠ e.parityCount.toNat ∨
      W.gen.closeReason ≠ e.closeReason.toNat) then (false, W)
  else if e.k.toNat > W.gen.k then (false, W)
  else if (W.gen.received.drop e.k.toNat).any id then (false, W)
  else
    let g := W.gen.close e now
    let row := e.index.toNat - e.k.toNat
    -- this check comes after the closure was written
    if g.otherWidth payload then (false, { W with gen := g })
    else
      tryRecover publish now
        { W with gen := { g with parities := g.parities.set row payload, parityReceived := true } }

/-! ### The decoder -/

/-- `finalize` -/
def finalize (g : Generation) (st : Stats) : Generation × Stats :=
  if !g.active || !g.parityReceived || g.recovered || g.unrecoverableCounted || g.k = 0 then
    (g, st)
  else if (List.range g.k).countP (fun i => !g.received.getD i false) > 0 then
    ({ g with unrecoverableCounted := true },
      { st with counters :=
        { st.counters with unrecoverableGens := st.counters.unrecoverableGens + 1 } })
  else (g, st)

/-- `Decoder` -/
structure Decoder where
  gens : ℕ
  slots : List Generation
  stats : Stats
  /-- The constructor turns zero into one. -/
  gens_pos : 0 < gens
  slots_length : slots.length = gens

namespace Decoder

/-- The constructor. -/
def new (gens : ℕ) : Decoder where
  gens := if gens = 0 then 1 else gens
  slots := List.replicate (if gens = 0 then 1 else gens) {}
  stats := {}
  gens_pos := by split <;> omega
  slots_length := List.length_replicate

/-- The slot of a generation. -/
def place (d : Decoder) (genId : BitVec 32) : ℕ := genId.toNat % d.gens

/-- What the slot of a generation holds. -/
def held (d : Decoder) (genId : BitVec 32) : Generation := d.slots.getD (d.place genId) {}

/-- `slot`: the generation in the slot, started anew if the slot holds another or none. -/
def slot (d : Decoder) (genId : BitVec 32) (k now : ℕ) : Generation × Stats :=
  let g := d.held genId
  if !g.active || g.genId != genId then
    (.started genId k now, (finalize g d.stats).2)
  else (g, d.stats)

/-- Write the slot of a generation back. -/
def store (d : Decoder) (genId : BitVec 32) (g : Generation) (st : Stats) : Decoder :=
  { d with
    slots := d.slots.set (d.place genId) g
    stats := st
    slots_length := by rw [List.length_set, d.slots_length] }

/-- Run the rest of `receive` on the slot of a generation. -/
def onSlot (d : Decoder) (genId : BitVec 32) (k now : ℕ) (s : σ)
    (f : Work σ → Bool × Work σ) : Bool × Decoder × σ :=
  let start := d.slot genId k now
  let result := f ⟨start.1, start.2, s⟩
  (result.1, d.store genId result.2.gen result.2.stats, result.2.out)

/-- `++counters_.parity_received` -/
def countParity (d : Decoder) : Decoder :=
  { d with stats := { d.stats with counters :=
    { d.stats.counters with parityReceived := d.stats.counters.parityReceived + 1 } } }

/-- The checks on a data shard's envelope. -/
def badData (e : Envelope) (payload : List Byte) : Prop :=
  payload.length = 0 ∨ payload.length ≠ e.protectedLen.toNat ∨
    e.protectedLen.toNat > Wire.maxFrame ∨ e.k.toNat ≤ e.index.toNat

/-- The checks on a parity shard's envelope. -/
def badParity (e : Envelope) (payload : List Byte) : Prop :=
  e.parityCount.toNat > 16 ∨ e.index.toNat < e.k.toNat ∨
    e.k.toNat + e.parityCount.toNat ≤ e.index.toNat ∨ e.protectedLen.toNat ≠ payload.length ∨
    payload.length < 2 ∨ payload.length > Wire.maxFrame + 2

instance (e : Envelope) (payload : List Byte) : Decidable (badData e payload) :=
  inferInstanceAs (Decidable (_ ∨ _))

instance (e : Envelope) (payload : List Byte) : Decidable (badParity e payload) :=
  inferInstanceAs (Decidable (_ ∨ _))

/-- `receive`. A datagram that is not an FEC shard goes to the callback as it is. -/
def receive (publish : Publish σ) (d : Decoder) (data : List Byte) (now : ℕ) (s : σ) :
    Bool × Decoder × σ :=
  if data.length < kEnvelopeSize ∨ (readEnvelope data).magic ≠ kMagic then
    let (ok, s) := publish data false 0 s
    (ok, d, s)
  else
    let e := readEnvelope data
    let payload := data.drop kEnvelopeSize
    if e.k = 0 ∨ e.k.toNat > kMaxGeneration ∨ e.closeReason.toNat > 2 then (false, d, s)
    else if e.parityCount = 0 then
      if badData e payload then (false, d, s)
      else d.onSlot e.genId e.k.toNat now s (receiveData publish e payload now)
    else if badParity e payload then (false, d, s)
    else d.countParity.onSlot e.genId e.k.toNat now s (receiveParity publish e payload now)

/-- `active && now_ns - first_ns >= ttl_ns`, the difference taken modulo `2 ^ 64`. -/
def expired (now ttl : ℕ) (g : Generation) : Bool :=
  g.active && ttl ≤ (now + 2 ^ 64 - g.firstNs) % 2 ^ 64

/-- The default of `ttl_ns`, one second. -/
def defaultTtl : ℕ := 1000000000

/-- `expire` -/
def expire (d : Decoder) (now ttl : ℕ) : Decoder :=
  { d with
    slots := d.slots.map fun g => if expired now ttl g then {} else g
    stats := d.slots.foldl (fun st g => if expired now ttl g then (finalize g st).2 else st) d.stats
    slots_length := by rw [List.length_map, d.slots_length] }

/-- `retire_all` -/
def retireAll (d : Decoder) : Decoder :=
  { d with
    slots := d.slots.map fun g => (finalize g d.stats).1
    stats := d.slots.foldl (fun st g => (finalize g st).2) d.stats
    slots_length := by rw [List.length_map, d.slots_length] }

/-! ### The slots -/

/-- The slot of `genId` holds that generation. -/
def Holds (d : Decoder) (genId : BitVec 32) : Prop :=
  (d.held genId).active = true ∧ (d.held genId).genId = genId

instance (d : Decoder) (genId : BitVec 32) : Decidable (d.Holds genId) :=
  inferInstanceAs (Decidable (_ ∧ _))

/-- `d'` differs from `d` in the slot of `genId` only. -/
structure OnlySlot (d d' : Decoder) (genId : BitVec 32) : Prop where
  gens : d'.gens = d.gens
  slots : ∀ j, j ≠ d.place genId → d'.slots.getD j {} = d.slots.getD j {}

theorem new_slot (gens j : ℕ) : (new gens).slots.getD j {} = {} := by
  rw [new, List.getD_eq_getElem?_getD, List.getElem?_replicate]
  split <;> split <;> rfl

theorem place_lt (d : Decoder) (genId : BitVec 32) : d.place genId < d.slots.length := by
  rw [d.slots_length]
  exact Nat.mod_lt _ d.gens_pos

/-- A slot is left alone by `expire` or emptied. -/
theorem expire_slot (d : Decoder) (now ttl j : ℕ) :
    (d.expire now ttl).slots.getD j {} = {} ∨
      (d.expire now ttl).slots.getD j {} = d.slots.getD j {} := by
  by_cases hj : j < d.slots.length
  · rw [Decoder.expire, getD_map (d := ({} : Generation)) _ _ hj]
    split
    · exact Or.inl rfl
    · exact Or.inr rfl
  · refine Or.inl (List.getD_eq_default _ _ ?_)
    rw [Decoder.expire, List.length_map]
    omega

/-- A slot that still holds a generation is one `expire` left alone. -/
theorem Holds.of_expire {d : Decoder} {now ttl : ℕ} {genId : BitVec 32}
    (h : (d.expire now ttl).Holds genId) :
    (d.expire now ttl).held genId = d.held genId ∧ d.Holds genId := by
  have hheld : (d.expire now ttl).held genId = d.held genId := by
    rcases d.expire_slot now ttl (d.place genId) with hslot | hslot
    · have hactive := h.1
      rw [held, show (d.expire now ttl).place genId = d.place genId from rfl, hslot] at hactive
      cases hactive
    · exact hslot
  rw [Holds, ← hheld]
  exact ⟨rfl, h⟩

/-- Two generations that are held sit in two slots, and only one has changed. -/
theorem Holds.of_onlySlot {d d' : Decoder} {genId genId' : BitVec 32}
    (h : OnlySlot d d' genId) (hholds : d'.Holds genId) (hne : genId ≠ genId')
    (hholds' : d'.Holds genId') : d'.held genId' = d.held genId' ∧ d.Holds genId' := by
  have hplace : d.place genId' ≠ d.place genId := by
    intro hsame
    have hheld : d'.held genId' = d'.held genId := by
      rw [held, held, place, place, h.gens]
      exact congrArg (fun j => d'.slots.getD j {}) hsame
    refine hne ?_
    rw [← hholds.2, ← hheld, hholds'.2]
  have hheld : d'.held genId' = d.held genId' := by
    rw [held, place, h.gens]
    exact h.slots _ hplace
  rw [Holds, ← hheld]
  exact ⟨rfl, hholds'⟩

theorem slot_of_holds {d : Decoder} {genId : BitVec 32} (h : d.Holds genId) (k now : ℕ) :
    d.slot genId k now = (d.held genId, d.stats) := by
  rw [slot, h.1, h.2]
  simp

/-- What the slot held is given up. -/
theorem slot_of_not_holds {d : Decoder} {genId : BitVec 32} (h : ¬ d.Holds genId) (k now : ℕ) :
    d.slot genId k now =
      (.started genId k now, (finalize (d.held genId) d.stats).2) := by
  rw [slot, if_pos]
  rw [Holds, not_and_or] at h
  rcases h with h | h
  · simp [h]
  · simp [h]

/-- What `slot` returns. -/
theorem slot_eq (d : Decoder) (genId : BitVec 32) (k now : ℕ) :
    (d.Holds genId ∧ d.slot genId k now = (d.held genId, d.stats)) ∨
      (¬ d.Holds genId ∧
        ∃ st, d.slot genId k now = (.started genId k now, st)) := by
  by_cases h : d.Holds genId
  · exact .inl ⟨h, slot_of_holds h k now⟩
  · exact .inr ⟨h, _, slot_of_not_holds h k now⟩

/-- What `onSlot` does with the rest of `receive`. -/
theorem onSlot_eq (d : Decoder) (genId : BitVec 32) (k now : ℕ) (s : σ)
    (f : Work σ → Bool × Work σ) {ok : Bool} {W : Work σ}
    (hf : f ⟨(d.slot genId k now).1, (d.slot genId k now).2, s⟩ = (ok, W)) :
    ∃ d', d.onSlot genId k now s f = (ok, d', W.out) ∧ OnlySlot d d' genId ∧
      d'.held genId = W.gen := by
  refine ⟨d.store genId W.gen W.stats, by simp only [onSlot, hf], ⟨rfl, fun j hj => ?_⟩, ?_⟩
  · rw [store, List.getD_eq_getElem?_getD, List.getElem?_set_ne (Ne.symm hj),
      ← List.getD_eq_getElem?_getD]
  · change (d.slots.set (d.place genId) W.gen).getD (d.place genId) {} = W.gen
    rw [List.getD_eq_getElem _ _ (by rw [List.length_set]; exact d.place_lt genId)]
    exact List.getElem_set_self _

end Decoder
end Fec
end PulseFanout
