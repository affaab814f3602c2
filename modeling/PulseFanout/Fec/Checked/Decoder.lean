import PulseFanout.Fec.Checked.Recovery

/-!
# The decoder with its accesses checked (`fec.h`)

`receive`, `finalize` and the two loops over the slots. On a decoder whose active slots are safe
each equals `.ok` of its counterpart in `Fec.Decoder`, and leaves the slots safe. The result is
about runs: no sequence of calls on arbitrary bytes faults.
-/

namespace PulseFanout
namespace Fec

open Framework

variable {σ : Type}

namespace Checked

/-! ### One shard -/

/-- The rest of `receive` for a data shard. -/
def receiveData (publish : Publish σ) (e : Envelope) (payload : List Byte) (now : ℕ)
    (W : Work σ) : Except Trap (Bool × Work σ) := do
  let index := e.index.toNat
  if e.k.toNat < W.gen.k ∨ (W.gen.parityReceived = false ∧ e.k.toNat ≠ W.gen.k) then
    return (false, W)
  else
    let g := W.gen.ensure e.k.toNat
    if g.k ≤ index then return (false, { W with gen := g })
    else
      let g := g.touch now
      match publish payload false g.closeReason W.out with
      | (false, out) => return (false, { W with gen := g, out })
      | (true, out) =>
        let data ← writeAt .range g.data index (protectedFrame payload e.protectedLen.toNat)
        let received ← writeAt .range g.received index true
        tryRecover publish now { W with gen := { g with data, received }, out }

theorem receiveData_eq (publish : Publish σ) {e : Envelope} (payload : List Byte) (now : ℕ)
    {W : Work σ} (h : Opened W.gen) (hk : 1 ≤ e.k.toNat) :
    receiveData publish e payload now W = .ok (Fec.receiveData publish e payload now W) := by
  unfold receiveData Fec.receiveData
  dsimp only
  split
  · rfl
  next hconflict =>
  have hsafe : Safe (W.gen.ensure e.k.toNat) :=
    h.ensure hk fun _ => Nat.le_of_not_lt fun hlt => hconflict (.inl hlt)
  generalize W.gen.ensure e.k.toNat = g at hsafe ⊢
  split
  · rfl
  next hindex =>
  generalize publish payload false (g.touch now).closeReason W.out = answer
  obtain ⟨ok, out⟩ := answer
  cases ok with
  | false => rfl
  | true =>
    have hlt : e.index.toNat < g.k := Nat.lt_of_not_le hindex
    have htouched : Safe (g.touch now) := hsafe.touch now
    have hdata : e.index.toNat < (g.touch now).data.length := hlt.trans_le htouched.sized
    dsimp only
    rw [writeAt_of_lt hdata, ok_bind, writeAt_of_lt (htouched.lengths ▸ hdata), ok_bind]
    exact tryRecover_eq publish now (htouched.put hlt _)

/-- `for i: if(gen.received[i]) return false`, over the indices to come. -/
def anyReceived (received : List Bool) : List ℕ → Except Trap Bool
  | [] => return false
  | i :: rest => do
    if ← readAt .range received i then return true else anyReceived received rest

theorem anyReceived_eq (received : List Bool) (n k : ℕ) (hn : n = received.length - k) :
    anyReceived received (List.range' k n) = .ok ((received.drop k).any id) := by
  induction n generalizing k with
  | zero =>
    rw [List.drop_of_length_le (by omega)]
    rfl
  | succ n ih =>
    have hk : k < received.length := by omega
    rw [List.range'_succ, anyReceived, readAt_of_lt hk false, ok_bind, List.drop_eq_getElem_cons hk,
      List.any_cons, List.getD_eq_getElem _ _ hk]
    cases hhere : received[k] with
    | true => rfl
    | false => exact ih (k + 1) (by omega)

/-- The rest of `receive` for a parity shard. -/
def receiveParity (publish : Publish σ) (e : Envelope) (payload : List Byte) (now : ℕ)
    (W : Work σ) : Except Trap (Bool × Work σ) := do
  if W.gen.parityReceived ∧ (W.gen.k ≠ e.k.toNat ∨ W.gen.parityCount ≠ e.parityCount.toNat ∨
      W.gen.closeReason ≠ e.closeReason.toNat) then return (false, W)
  else if e.k.toNat > W.gen.k then return (false, W)
  else if ← anyReceived W.gen.received
      (List.range' e.k.toNat (W.gen.received.length - e.k.toNat)) then return (false, W)
  else
    let g := W.gen.close e now
    let row := e.index.toNat - e.k.toNat
    if g.otherWidth payload then return (false, { W with gen := g })
    else
      let parities ← writeAt .range g.parities row payload
      tryRecover publish now { W with gen := { g with parities, parityReceived := true } }

theorem receiveParity_eq (publish : Publish σ) {e : Envelope} {payload : List Byte} (now : ℕ)
    {W : Work σ} (h : Opened W.gen) (hk : 1 ≤ e.k.toNat) (hbad : ¬ Decoder.badParity e payload) :
    receiveParity publish e payload now W = .ok (Fec.receiveParity publish e payload now W) := by
  unfold receiveParity Fec.receiveParity
  dsimp only
  split
  · rfl
  next hclosure =>
  split
  · rfl
  next hle =>
  rw [anyReceived_eq _ _ _ rfl, ok_bind]
  split
  · rfl
  next hbeyond =>
  have hconflict : ¬ conflictsParity e W.gen := by
    rintro (h | h | h)
    · exact hclosure h
    · exact hle h
    · exact hbeyond h
  -- the closure has allocated 16 rows, and the envelope was checked for that many
  have hrow : e.index.toNat - e.k.toNat < (W.gen.close e now).parities.length := by
    simp only [Decoder.badParity, not_or, not_lt] at hbad
    rw [(h.close now hconflict hk hbad.1).2]
    omega
  split
  · rfl
  · next hwidth =>
    rw [writeAt_of_lt hrow, ok_bind]
    exact tryRecover_eq publish now
      (h.storeParity hconflict hk hbad (Bool.eq_false_iff.mpr hwidth))

/-! ### The decoder -/

/-- `finalize`, whose test on the size of `received` guards the access. -/
def finalize (g : Generation) (st : Stats) : Except Trap (Generation × Stats) := do
  if !g.active || !g.parityReceived || g.recovered || g.unrecoverableCounted || g.k = 0 then
    return (g, st)
  else
    let missing ← (List.range g.k).foldlM (fun missing i => do
      if g.received.length ≤ i then return missing + 1
      else if ← readAt .range g.received i then return missing
      else return missing + 1) 0
    if missing > 0 then
      return ({ g with unrecoverableCounted := true },
        { st with counters :=
          { st.counters with unrecoverableGens := st.counters.unrecoverableGens + 1 } })
    else return (g, st)

theorem finalize_eq (g : Generation) (st : Stats) : finalize g st = .ok (Fec.finalize g st) := by
  have hloop := range_loop_eq (f := fun missing i => do
      if g.received.length ≤ i then return missing + 1
      else if ← readAt Trap.range g.received i then return missing
      else return missing + 1)
    (g := fun n => (List.range n).countP fun i => !g.received.getD i false) (n := g.k)
    fun i _ => by
      rw [List.range_succ, List.countP_append, List.countP_singleton]
      split
      · next hge =>
        rw [List.getD_eq_default _ _ hge]
        rfl
      · next hlt =>
        rw [readAt_of_lt (Nat.lt_of_not_le hlt) false, ok_bind]
        cases g.received.getD i false <;> rfl
  unfold finalize Fec.finalize
  split
  · rfl
  · rw [List.range_zero, List.countP_nil] at hloop
    rw [hloop, ok_bind]
    split <;> rfl

/-- `slot` -/
def slot (d : Decoder) (genId : BitVec 32) (k now : ℕ) : Except Trap (Generation × Stats) := do
  let g ← readAt .range d.slots (genId.toNat % d.gens)
  if !g.active || g.genId != genId then
    let retired ← finalize g d.stats
    return (.started genId k now, retired.2)
  else return (g, d.stats)

theorem slot_eq (d : Decoder) (genId : BitVec 32) (k now : ℕ) :
    slot d genId k now = .ok (d.slot genId k now) := by
  have hread : readAt Trap.range d.slots (genId.toNat % d.gens) = .ok (d.held genId) :=
    readAt_of_lt (d.place_lt genId) {}
  unfold slot Decoder.slot
  rw [hread, ok_bind]
  dsimp only
  split
  · rw [finalize_eq]
    rfl
  · rfl

/-- Run the rest of `receive` on the slot of a generation. -/
def onSlot (d : Decoder) (genId : BitVec 32) (k now : ℕ) (s : σ)
    (f : Work σ → Except Trap (Bool × Work σ)) : Except Trap (Bool × Decoder × σ) := do
  let start ← slot d genId k now
  let result ← f ⟨start.1, start.2, s⟩
  return (result.1, d.store genId result.2.gen result.2.stats, result.2.out)

theorem onSlot_eq (d : Decoder) (genId : BitVec 32) (k now : ℕ) (s : σ)
    {f : Work σ → Except Trap (Bool × Work σ)} {f' : Work σ → Bool × Work σ}
    (hf : f ⟨(d.slot genId k now).1, (d.slot genId k now).2, s⟩ =
      .ok (f' ⟨(d.slot genId k now).1, (d.slot genId k now).2, s⟩)) :
    onSlot d genId k now s f = .ok (d.onSlot genId k now s f') := by
  rw [onSlot, slot_eq, ok_bind, hf, ok_bind]
  rfl

/-- `receive` -/
def receive (publish : Publish σ) (d : Decoder) (data : List Byte) (now : ℕ) (s : σ) :
    Except Trap (Bool × Decoder × σ) := do
  if data.length < kEnvelopeSize ∨ (readEnvelope data).magic ≠ kMagic then
    let (ok, s) := publish data false 0 s
    return (ok, d, s)
  else
    let e := readEnvelope data
    let payload ← sliceAt .range data kEnvelopeSize (data.length - kEnvelopeSize)
    if e.k = 0 ∨ e.k.toNat > kMaxGeneration ∨ e.closeReason.toNat > 2 then return (false, d, s)
    else if e.parityCount = 0 then
      if Decoder.badData e payload then return (false, d, s)
      else onSlot d e.genId e.k.toNat now s (receiveData publish e payload now)
    else if Decoder.badParity e payload then return (false, d, s)
    else onSlot d.countParity e.genId e.k.toNat now s (receiveParity publish e payload now)

/-- **`receive` of any datagram**, where every active slot is safe. -/
theorem receive_eq (publish : Publish σ) {d : Decoder} (h : d.AllSafe) (data : List Byte) (now : ℕ)
    (s : σ) : receive publish d data now s = .ok (d.receive publish data now s) := by
  unfold receive Decoder.receive
  split
  · rfl
  next hfec =>
  -- a shorter datagram was let through before the envelope is read
  have hlong : kEnvelopeSize ≤ data.length := Nat.le_of_not_lt fun hlt => hfec (.inl hlt)
  have hpayload : sliceAt Trap.range data kEnvelopeSize (data.length - kEnvelopeSize) =
      .ok (data.drop kEnvelopeSize) := by
    rw [sliceAt_of_le (by omega), List.take_of_length_le (by rw [List.length_drop])]
  dsimp only
  rw [hpayload, ok_bind]
  generalize readEnvelope data = e
  generalize data.drop kEnvelopeSize = payload
  split
  · rfl
  next hfirst =>
  split
  · next hcount =>
    split
    · rfl
    next hbad =>
    have hgood : ¬ badEnvelope e payload := by
      rintro (h | h | h)
      · exact hfirst h
      · exact hbad h.2
      · exact h.1 hcount
    obtain ⟨hk, hk'⟩ := k_of_good hgood
    exact onSlot_eq d _ _ now s
      (receiveData_eq publish payload now (h.slot_opened e.genId now hk hk') hk)
  · next hcount =>
    split
    · rfl
    next hbad =>
    have hgood : ¬ badEnvelope e payload := by
      rintro (h | h | h)
      · exact hfirst h
      · exact hcount h.1
      · exact hbad h.2
    obtain ⟨hk, hk'⟩ := k_of_good hgood
    have hcounted : d.countParity.AllSafe := h
    exact onSlot_eq d.countParity _ _ now s
      (receiveParity_eq publish now (hcounted.slot_opened e.genId now hk hk') hk hbad)

/-- `expire` -/
def expire (d : Decoder) (now ttl : ℕ) : Except Trap Decoder := do
  let stats ← d.slots.foldlM (fun st g => do
    if Decoder.expired now ttl g then return (← finalize g st).2 else return st) d.stats
  return { d.expire now ttl with stats }

/-- `retire_all` -/
def retireAll (d : Decoder) : Except Trap Decoder := do
  let stats ← d.slots.foldlM (fun st g => do return (← finalize g st).2) d.stats
  return { d.retireAll with stats }

theorem expire_eq (d : Decoder) (now ttl : ℕ) : expire d now ttl = .ok (d.expire now ttl) := by
  have hloop := ok_foldlM (ε := Trap) (fun st g => do
      if Decoder.expired now ttl g then return (← finalize g st).2 else return st)
    (fun st g => if Decoder.expired now ttl g then (Fec.finalize g st).2 else st)
    (fun st g => by
      split
      · rw [finalize_eq]
        rfl
      · rfl) d.slots d.stats
  rw [expire, hloop]
  rfl

theorem retireAll_eq (d : Decoder) : retireAll d = .ok d.retireAll := by
  have hloop := ok_foldlM (ε := Trap) (fun st g => do return (← finalize g st).2)
    (fun st g => (Fec.finalize g st).2) (fun st g => by rw [finalize_eq]; rfl) d.slots d.stats
  rw [retireAll, hloop]
  rfl

end Checked

/-! ### Runs -/

namespace Decoder

/-- One call, with its accesses checked. -/
def checkedCall (state : Decoder × σ) : Call σ → Except Checked.Trap (Decoder × σ)
  | .receive publish data now => do
    let result ← Checked.receive publish state.1 data now state.2
    return result.2
  | .expire now ttl => do return (← Checked.expire state.1 now ttl, state.2)
  | .retireAll => do return (← Checked.retireAll state.1, state.2)

/-- One call faults nowhere. -/
theorem checkedCall_eq {state : Decoder × σ} (h : state.1.AllSafe) (c : Call σ) :
    checkedCall state c = .ok (call state c) := by
  cases c with
  | receive publish data now =>
    rw [checkedCall, Checked.receive_eq publish h]
    rfl
  | expire now ttl =>
    rw [checkedCall, Checked.expire_eq]
    rfl
  | retireAll =>
    rw [checkedCall, Checked.retireAll_eq]
    rfl

/-- Nor does a sequence of calls, since each leaves the slots safe for the next. -/
theorem checkedCalls_eq (state : Decoder × σ) (h : state.1.AllSafe) (cs : List (Call σ)) :
    cs.foldlM checkedCall state = .ok (cs.foldl call state) := by
  induction cs generalizing state with
  | nil => rfl
  | cons c cs ih =>
    rw [List.foldlM_cons, checkedCall_eq h c, ok_bind, List.foldl_cons]
    exact ih _ (h.after c)

end Decoder

/-- **The decoder is safe on hostile bytes.** Whatever datagrams come in, whatever the callback
answers and whenever the slots are expired or retired, no call indexes a vector out of range,
inverts zero or meets a column without a pivot, and every active generation is left with its
dimensions in order. -/
theorem hostile_bytes_safe (gens : ℕ) (s : σ) (calls : List (Call σ)) :
    ∃ d s', calls.foldlM Decoder.checkedCall (Decoder.new gens, s) = .ok (d, s') ∧
      calls.foldl Decoder.call (Decoder.new gens, s) = (d, s') ∧
      ∀ g ∈ d.slots, g.active = true → Safe g := by
  have hstart : (Decoder.new gens, s).1.AllSafe := .new gens
  have hsafe := hstart.afterAll calls
  refine ⟨_, _, Decoder.checkedCalls_eq _ hstart calls, rfl, fun g hg hactive => ?_⟩
  obtain ⟨j, hj, rfl⟩ := List.getElem_of_mem hg
  have hslot := hsafe j
  rw [List.getD_eq_getElem _ _ hj] at hslot
  exact hslot hactive

end Fec
end PulseFanout
