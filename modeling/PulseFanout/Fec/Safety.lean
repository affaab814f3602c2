import PulseFanout.Framework.Bounds
import PulseFanout.Fec.Decoder

/-!
# What every generation satisfies

Whoever sends the shards chooses `k`, the index, the number of parity shards, the lengths and the
order, and `k` shrinks in place while the vectors do not. `Safe` is what holds of an active slot all
the same, after any shard and any answer of the callback.

The clauses hang together. The stored parities have one width because a shard of another width is
refused (`width`); this check, and the one on the number of parity shards, read what earlier shards
wrote, so a stored parity must stand for an accepted closure (`stored`), and a closure once accepted
fixes `k` and the number of parity shards. It also bounds the frames at hand (`beyond`): a data
shard is stored below `k` only, and `k` shrinks only to a value above every frame at hand.

`Opened` leaves out the size of the vectors, since `slot` starts a generation with none.
-/

namespace PulseFanout
namespace Fec

open Framework

variable {σ : Type} {publish : Publish σ} {e : Envelope} {payload : List Byte} {now : ℕ}

/-- The dimensions of a generation, and what it stores of parity. -/
structure Opened (g : Generation) : Prop where
  k_pos : 1 ≤ g.k
  k_le : g.k ≤ kMaxGeneration
  lengths : g.data.length = g.received.length
  /-- With parity accepted, no frame at hand is at or above `k`. -/
  beyond : g.parityReceived = true → ∀ i, g.k ≤ i → g.received.getD i false = false
  parityCount_le : g.parityCount ≤ 16
  /-- No vector of parities yet, or one for sixteen rows. -/
  parities : g.parities = [] ∨ g.parities.length = 16
  stored : ∀ row, g.parities.getD row [] ≠ [] → g.parityReceived = true ∧ row < g.parityCount
  width : ∃ w, 2 ≤ w ∧ w ≤ Wire.maxFrame + 2 ∧
    ∀ row, g.parities.getD row [] ≠ [] → (g.parities.getD row []).length = w

/-- What holds of a generation once a shard of it was processed. -/
structure Safe (g : Generation) : Prop extends Opened g where
  sized : g.k ≤ g.data.length

/-! ### What the steps of `receive` can do

One inversion for each function, with everything it may leave behind. -/

/-- How `try_recover` can end: with nothing done, or after it has published frames that were
absent. -/
inductive Recovers (publish : Publish σ) (now : ℕ) (W : Work σ) : Bool × Work σ → Prop
  | still (ok : Bool) : Recovers publish now W (ok, W)
  | stopped {blocks : List (ℕ × List Byte)} {W' : Work σ} (hblocks : ∀ b ∈ blocks, b.1 < W.gen.k)
      (hrun : publishRecovered publish blocks W = (false, W')) : Recovers publish now W (false, W')
  | finished {blocks : List (ℕ × List Byte)} {W' : Work σ} (hblocks : ∀ b ∈ blocks, b.1 < W.gen.k)
      (hrun : publishRecovered publish blocks W = (true, W')) :
      Recovers publish now W (true, finishRecovery now W')

theorem tryRecover_recovers (publish : Publish σ) (now : ℕ) (W : Work σ) :
    Recovers publish now W (tryRecover publish now W) := by
  have hblocks : ∀ (rhs : List (List Byte)), ∀ b ∈ W.gen.absent.zip rhs, b.1 < W.gen.k := by
    intro rhs b hb
    have hmem : b.1 ∈ W.gen.absent := (List.of_mem_zip hb).1
    exact List.mem_range.mp (List.mem_of_mem_filter hmem)
  unfold tryRecover
  dsimp only
  split_ifs
  · exact .still true
  · exact .still true
  · exact .still true
  split
  · exact .still false
  split
  · exact .still false
  split_ifs
  · split
    · next hrun => exact .stopped (hblocks _) hrun
    · next hrun => exact .finished (hblocks _) hrun
  · exact .still false

/-- The test on a data shard's `k`. -/
def conflictsData (e : Envelope) (g : Generation) : Prop :=
  e.k.toNat < g.k ∨ (g.parityReceived = false ∧ e.k.toNat ≠ g.k)

/-- How a data shard can end. -/
inductive TakesData (publish : Publish σ) (e : Envelope) (payload : List Byte) (now : ℕ)
    (W : Work σ) : Bool × Work σ → Prop
  | refused (hconflict : conflictsData e W.gen) : TakesData publish e payload now W (false, W)
  | beyond (hconflict : ¬ conflictsData e W.gen)
      (hindex : (W.gen.ensure e.k.toNat).k ≤ e.index.toNat) :
      TakesData publish e payload now W (false, { W with gen := W.gen.ensure e.k.toNat })
  | unpublished (hconflict : ¬ conflictsData e W.gen) {out : σ}
      (hpub : publish payload false (W.gen.ensure e.k.toNat).closeReason W.out = (false, out)) :
      TakesData publish e payload now W
        (false, { W with gen := (W.gen.ensure e.k.toNat).touch now, out })
  | stored (hconflict : ¬ conflictsData e W.gen)
      (hindex : e.index.toNat < (W.gen.ensure e.k.toNat).k) {out : σ}
      (hpub : publish payload false (W.gen.ensure e.k.toNat).closeReason W.out = (true, out))
      {g : Generation} (hg : (W.gen.ensure e.k.toNat).touch now = g) :
      TakesData publish e payload now W (tryRecover publish now
        { W with
          gen := { g with
            data := g.data.set e.index.toNat (protectedFrame payload e.protectedLen.toNat)
            received := g.received.set e.index.toNat true }
          out })

theorem receiveData_takes (publish : Publish σ) (e : Envelope) (payload : List Byte) (now : ℕ)
    (W : Work σ) : TakesData publish e payload now W (receiveData publish e payload now W) := by
  unfold receiveData
  dsimp only
  split
  · next hconflict => exact .refused hconflict
  next hconflict =>
  split
  · next hindex => exact .beyond hconflict hindex
  next hindex =>
  split
  · next hpub => exact .unpublished hconflict hpub
  · next hpub => exact .stored hconflict (Nat.lt_of_not_le hindex) hpub rfl

/-- The tests on a parity shard's closure, before anything is written. -/
def conflictsParity (e : Envelope) (g : Generation) : Prop :=
  (g.parityReceived ∧ (g.k ≠ e.k.toNat ∨ g.parityCount ≠ e.parityCount.toNat ∨
    g.closeReason ≠ e.closeReason.toNat)) ∨ e.k.toNat > g.k ∨ (g.received.drop e.k.toNat).any id

/-- How a parity shard can end. -/
inductive TakesParity (publish : Publish σ) (e : Envelope) (payload : List Byte) (now : ℕ)
    (W : Work σ) : Bool × Work σ → Prop
  | refused (hconflict : conflictsParity e W.gen) : TakesParity publish e payload now W (false, W)
  | width (hconflict : ¬ conflictsParity e W.gen)
      (hwidth : (W.gen.close e now).otherWidth payload = true) :
      TakesParity publish e payload now W (false, { W with gen := W.gen.close e now })
  | stored (hconflict : ¬ conflictsParity e W.gen)
      (hwidth : (W.gen.close e now).otherWidth payload = false)
      {g : Generation} (hg : W.gen.close e now = g) :
      TakesParity publish e payload now W (tryRecover publish now
        { W with gen := { g with
            parities := g.parities.set (e.index.toNat - e.k.toNat) payload
            parityReceived := true } })

theorem receiveParity_takes (publish : Publish σ) (e : Envelope) (payload : List Byte) (now : ℕ)
    (W : Work σ) : TakesParity publish e payload now W (receiveParity publish e payload now W) := by
  unfold receiveParity
  dsimp only
  split
  · next hclosure => exact .refused (.inl hclosure)
  next hclosure =>
  split
  · next hk => exact .refused (.inr (.inl hk))
  next hk =>
  split
  · next hbeyond => exact .refused (.inr (.inr hbeyond))
  next hbeyond =>
  have hconflict : ¬ conflictsParity e W.gen := by
    rintro (h | h | h)
    · exact hclosure h
    · exact hk h
    · exact hbeyond h
  split
  · next hwidth => exact .width hconflict hwidth
  · next hwidth => exact .stored hconflict (Bool.eq_false_iff.mpr hwidth) rfl

/-! ### One generation -/

/-- A slot just started. -/
theorem Opened.start {genId : BitVec 32} {k : ℕ} (hk : 1 ≤ k) (hk' : k ≤ kMaxGeneration) :
    Opened (.started genId k now) where
  k_pos := hk
  k_le := hk'
  lengths := rfl
  beyond := fun h => absurd h Bool.false_ne_true
  parityCount_le := Nat.zero_le 16
  parities := .inl rfl
  stored := fun _ h => absurd rfl h
  width := ⟨2, le_rfl, by decide, fun _ h => absurd rfl h⟩

/-- `ensure` sizes the vectors. The value it may shrink to is not below a frame at hand once parity
was accepted. -/
theorem Opened.ensure {g : Generation} (h : Opened g) {k : ℕ} (hk : 1 ≤ k)
    (hbeyond : g.parityReceived = true → g.k ≤ k) : Safe (g.ensure k) := by
  have hshrunk : 1 ≤ (if g.k = 0 ∨ k < g.k then k else g.k) ∧
      (if g.k = 0 ∨ k < g.k then k else g.k) ≤ g.k ∧
      (g.parityReceived = true → (if g.k = 0 ∨ k < g.k then k else g.k) = g.k) := by
    have hpos := h.k_pos
    split
    · next hlt => exact ⟨hk, by omega, fun hp => by have := hbeyond hp; omega⟩
    · exact ⟨hpos, le_rfl, fun _ => rfl⟩
  rw [g.ensure_eq k h.lengths]
  generalize (if g.k = 0 ∨ k < g.k then k else g.k) = k' at hshrunk ⊢
  obtain ⟨hpos, hle, hsame⟩ := hshrunk
  refine { k_pos := hpos, k_le := hle.trans h.k_le, lengths := ?_, beyond := ?_,
           parityCount_le := h.parityCount_le, parities := h.parities, stored := h.stored,
           width := h.width, sized := ?_ }
  · simp only [List.length_append, List.length_replicate, h.lengths]
  · intro hp i hi
    dsimp only at hp hi ⊢
    rw [getD_append_replicate]
    exact h.beyond hp i (hsame hp ▸ hi)
  · simp only [List.length_append, List.length_replicate]
    omega

/-- A frame below `k` is put at hand. -/
theorem Safe.put {g : Generation} (h : Safe g) {i : ℕ} (hi : i < g.k) (block : List Byte) :
    Safe { g with data := g.data.set i block, received := g.received.set i true } := by
  refine { h with lengths := ?_, beyond := ?_, sized := ?_ }
  · simp only [List.length_set, h.lengths]
  · intro hp j hj
    dsimp only at hp hj ⊢
    rw [List.getD_eq_getElem?_getD, List.getElem?_set_ne (by omega), ← List.getD_eq_getElem?_getD]
    exact h.beyond hp j hj
  · simp only [List.length_set]
    exact h.sized

theorem Safe.touch {g : Generation} (h : Safe g) (now : ℕ) : Safe (g.touch now) := { h with }

/-- The frames recovered are below `k`. -/
theorem publishRecovered_safe (publish : Publish σ) (blocks : List (ℕ × List Byte)) {W : Work σ}
    (h : Safe W.gen) (hblocks : ∀ b ∈ blocks, b.1 < W.gen.k) :
    Safe (publishRecovered publish blocks W).2.gen := by
  induction blocks generalizing W with
  | nil => exact h
  | cons b blocks ih =>
    unfold publishRecovered
    dsimp only
    split
    · exact h
    · refine ih (h.put (hblocks b List.mem_cons_self) b.2) fun b' hb' => ?_
      exact hblocks b' (List.mem_cons_of_mem b hb')

theorem Recovers.safe {W : Work σ} {r : Bool × Work σ} (hr : Recovers publish now W r)
    (h : Safe W.gen) : Safe r.2.gen := by
  cases hr with
  | still ok => exact h
  | stopped hblocks hrun =>
    have hsafe := publishRecovered_safe publish _ h hblocks
    rwa [hrun] at hsafe
  | finished hblocks hrun =>
    have hsafe := publishRecovered_safe publish _ h hblocks
    rw [hrun] at hsafe
    exact { hsafe with }

/-- **A data shard.** A generation that `slot` has just started conflicts with no shard. -/
theorem TakesData.safe {W : Work σ} {r : Bool × Work σ} (hr : TakesData publish e payload now W r)
    (h : Opened W.gen) (hconflict : conflictsData e W.gen → Safe W.gen) (hk : 1 ≤ e.k.toNat) :
    Safe r.2.gen := by
  have hensure : ¬ conflictsData e W.gen → Safe (W.gen.ensure e.k.toNat) := by
    intro hno
    exact h.ensure hk fun _ => Nat.le_of_not_lt fun hlt => hno (.inl hlt)
  cases hr with
  | refused hyes => exact hconflict hyes
  | beyond hno hindex => exact hensure hno
  | unpublished hno hpub => exact (hensure hno).touch now
  | stored hno hindex hpub hg =>
    subst hg
    exact (tryRecover_recovers _ _ _).safe (((hensure hno).touch now).put hindex _)

/-- The fields the closure writes. What is stored already was accepted under the same closure. -/
theorem Opened.close {g : Generation} (h : Opened g) (now : ℕ) (hno : ¬ conflictsParity e g)
    (hk : 1 ≤ e.k.toNat) (hcount : e.parityCount.toNat ≤ 16) :
    Safe (g.close e now) ∧ (g.close e now).parities.length = 16 := by
  -- after the first parity a conflicting closure is refused
  have hsame : g.parityReceived = true → g.k = e.k.toNat ∧ g.parityCount = e.parityCount.toNat := by
    intro hp
    by_contra hne
    refine hno (.inl ⟨hp, ?_⟩)
    tauto
  have hsafe := h.ensure hk fun hp => (hsame hp).1.le
  have hfields : (g.ensure e.k.toNat).parities = g.parities ∧
      (g.ensure e.k.toNat).parityReceived = g.parityReceived := by
    rw [g.ensure_eq _ h.lengths]
    exact ⟨rfl, rfl⟩
  -- allocating the rows makes none of them nonempty
  have hrow : ∀ row, (g.close e now).parities.getD row [] = g.parities.getD row [] := by
    intro row
    change (if (g.ensure e.k.toNat).parities.isEmpty then List.replicate 16 []
      else (g.ensure e.k.toNat).parities).getD row [] = _
    rw [hfields.1]
    split
    · next hempty =>
      rw [List.isEmpty_iff.mp hempty]
      exact getD_append_replicate [] 16 row []
    · rfl
  have hlen : (g.close e now).parities.length = 16 := by
    change (if (g.ensure e.k.toNat).parities.isEmpty then List.replicate 16 []
      else (g.ensure e.k.toNat).parities).length = _
    rw [hfields.1]
    split
    · exact List.length_replicate
    · next hempty =>
      exact h.parities.resolve_left fun hnil => hempty (by rw [hnil]; rfl)
  refine ⟨{ hsafe with parityCount_le := hcount, parities := .inr hlen, stored := ?_, width := ?_ },
    hlen⟩
  · intro row hne
    rw [hrow] at hne
    obtain ⟨hp, hlt⟩ := h.stored row hne
    rw [(hsame hp).2] at hlt
    exact ⟨hfields.2.trans hp, hlt⟩
  · obtain ⟨w, hlow, hhigh, hw⟩ := h.width
    refine ⟨w, hlow, hhigh, fun row hne => ?_⟩
    rw [hrow] at hne ⊢
    exact hw row hne

/-- A width that is not another one. -/
theorem Generation.otherWidth_eq_false {g : Generation} (h : g.otherWidth payload = false) {row : ℕ}
    (hne : g.parities.getD row [] ≠ []) : (g.parities.getD row []).length = payload.length := by
  have hlt : row < g.parities.length := by
    by_contra hge
    exact hne (List.getD_eq_default _ _ (Nat.le_of_not_lt hge))
  rw [List.getD_eq_getElem _ _ hlt] at hne ⊢
  have hrow := List.any_eq_false.mp h _ (List.getElem_mem hlt)
  simpa [hne] using hrow

/-- Nothing at hand is at or above the new `k`. -/
theorem Opened.close_beyond {g : Generation} (h : Opened g) (hno : ¬ conflictsParity e g) {i : ℕ}
    (hi : (g.close e now).k ≤ i) : (g.close e now).received.getD i false = false := by
  have hk : (g.close e now).k = e.k.toNat := by
    change (g.ensure e.k.toNat).k = _
    rw [Generation.ensure_k]
    have hle : ¬ e.k.toNat > g.k := fun hgt => hno (.inr (.inl hgt))
    split <;> omega
  have hnone : ∀ b ∈ g.received.drop e.k.toNat, b = false := by
    intro b hb
    by_contra hne
    refine hno (.inr (.inr (List.any_eq_true.mpr ⟨b, hb, ?_⟩)))
    exact Bool.eq_true_of_not_eq_false hne
  change (g.ensure e.k.toNat).received.getD i false = false
  rw [g.ensure_eq _ h.lengths, getD_append_replicate]
  by_cases hlt : i < g.received.length
  · rw [List.getD_eq_getElem _ _ hlt]
    refine hnone _ (List.mem_drop_iff_getElem.mpr ⟨i - e.k.toNat, by omega, ?_⟩)
    congr 1
    omega
  · exact List.getD_eq_default _ _ (Nat.le_of_not_lt hlt)

/-- The parity is stored. -/
theorem Opened.storeParity {g : Generation} (h : Opened g) (hno : ¬ conflictsParity e g)
    (hk : 1 ≤ e.k.toNat) (hbad : ¬ Decoder.badParity e payload)
    (hwidth : (g.close e now).otherWidth payload = false) :
    Safe { g.close e now with
      parities := (g.close e now).parities.set (e.index.toNat - e.k.toNat) payload
      parityReceived := true } := by
  simp only [Decoder.badParity, not_or, not_lt] at hbad
  obtain ⟨hcount, hindex, hindex', hlen, hlow, hhigh⟩ := hbad
  obtain ⟨hsafe, hsize⟩ := h.close now hno hk hcount
  have hbeyond : ∀ i, (g.close e now).k ≤ i → (g.close e now).received.getD i false = false :=
    fun i => h.close_beyond hno
  have hcloseCount : (g.close e now).parityCount = e.parityCount.toNat := rfl
  generalize g.close e now = g at hsafe hsize hbeyond hcloseCount hwidth
  have hrow : e.index.toNat - e.k.toNat < g.parities.length := by omega
  refine { hsafe with
    beyond := fun _ => hbeyond, parities := .inr ?_, stored := ?_, width := ?_ }
  · rw [List.length_set]
    exact hsize
  · intro row hne
    refine ⟨rfl, ?_⟩
    dsimp only at hne ⊢
    rw [getD_set hrow] at hne
    split at hne
    · omega
    · exact (hsafe.stored row hne).2
  -- the rows stored before have this width too, by the check that was just passed
  · refine ⟨payload.length, hlow, hhigh, fun row hne => ?_⟩
    dsimp only at hne ⊢
    rw [getD_set hrow] at hne ⊢
    split
    · rfl
    · next hother =>
      rw [if_neg hother] at hne
      exact Generation.otherWidth_eq_false hwidth hne

/-- **A parity shard.** -/
theorem TakesParity.safe {W : Work σ} {r : Bool × Work σ}
    (hr : TakesParity publish e payload now W r) (h : Opened W.gen)
    (hconflict : conflictsParity e W.gen → Safe W.gen) (hk : 1 ≤ e.k.toNat)
    (hbad : ¬ Decoder.badParity e payload) : Safe r.2.gen := by
  cases hr with
  | refused hyes => exact hconflict hyes
  | width hno hwidth =>
    simp only [Decoder.badParity, not_or, not_lt] at hbad
    exact (h.close now hno hk hbad.1).1
  | stored hno hwidth hg =>
    subst hg
    exact (tryRecover_recovers _ _ _).safe (h.storeParity hno hk hbad hwidth)

/-! ### The decoder -/

/-- The checks `receive` makes before it looks for the slot. -/
def badEnvelope (e : Envelope) (payload : List Byte) : Prop :=
  (e.k = 0 ∨ e.k.toNat > kMaxGeneration ∨ e.closeReason.toNat > 2) ∨
    (e.parityCount = 0 ∧ Decoder.badData e payload) ∨
    (e.parityCount ≠ 0 ∧ Decoder.badParity e payload)

/-- How `receive` can end. -/
inductive Receives (publish : Publish σ) (d : Decoder) (data : List Byte) (now : ℕ) (s : σ) :
    Bool × Decoder × σ → Prop
  | plain (hplain : data.length < kEnvelopeSize ∨ (readEnvelope data).magic ≠ kMagic) :
      Receives publish d data now s
        ((publish data false 0 s).1, d, (publish data false 0 s).2)
  | rejected (hbad : badEnvelope (readEnvelope data) (data.drop kEnvelopeSize)) :
      Receives publish d data now s (false, d, s)
  | data (hfec : ¬ (data.length < kEnvelopeSize ∨ (readEnvelope data).magic ≠ kMagic))
      {e : Envelope} {payload : List Byte} (he : readEnvelope data = e)
      (hpayload : data.drop kEnvelopeSize = payload) (hgood : ¬ badEnvelope e payload)
      (hcount : e.parityCount = 0) :
      Receives publish d data now s
        (d.onSlot e.genId e.k.toNat now s (receiveData publish e payload now))
  | parity (hfec : ¬ (data.length < kEnvelopeSize ∨ (readEnvelope data).magic ≠ kMagic))
      {e : Envelope} {payload : List Byte} (he : readEnvelope data = e)
      (hpayload : data.drop kEnvelopeSize = payload) (hgood : ¬ badEnvelope e payload)
      (hcount : e.parityCount ≠ 0) :
      Receives publish d data now s
        (d.countParity.onSlot e.genId e.k.toNat now s (receiveParity publish e payload now))

theorem receive_receives (publish : Publish σ) (d : Decoder) (data : List Byte) (now : ℕ) (s : σ) :
    Receives publish d data now s (d.receive publish data now s) := by
  unfold Decoder.receive
  dsimp only
  split_ifs with hplain hfirst hcount hbad hbad
  · exact .plain hplain
  · exact .rejected (.inl hfirst)
  · exact .rejected (.inr (.inl ⟨hcount, hbad⟩))
  · refine .data hplain rfl rfl ?_ hcount
    rintro (h | h | h)
    · exact hfirst h
    · exact hbad h.2
    · exact h.1 hcount
  · exact .rejected (.inr (.inr ⟨hcount, hbad⟩))
  · refine .parity hplain rfl rfl ?_ hcount
    rintro (h | h | h)
    · exact hfirst h
    · exact hcount h.1
    · exact hbad h.2

theorem k_of_good (h : ¬ badEnvelope e payload) : 1 ≤ e.k.toNat ∧ e.k.toNat ≤ kMaxGeneration := by
  simp only [badEnvelope, not_or, not_lt] at h
  refine ⟨Nat.one_le_iff_ne_zero.mpr fun hzero => h.1.1 ?_, h.1.2.1⟩
  exact BitVec.eq_of_toNat_eq hzero

namespace Decoder

/-- The number of slots stays. -/
theorem receive_gens (d : Decoder) (publish : Publish σ) (data : List Byte) (now : ℕ) (s : σ) :
    (d.receive publish data now s).2.1.gens = d.gens := by
  have hreceives := receive_receives publish d data now s
  generalize d.receive publish data now s = r at hreceives ⊢
  cases hreceives with
  | plain | rejected => rfl
  | data | parity => rfl

/-- Every active slot is safe. -/
def AllSafe (d : Decoder) : Prop :=
  ∀ j, (d.slots.getD j {}).active = true → Safe (d.slots.getD j {})

variable {d : Decoder} {genId : BitVec 32} {k : ℕ}

theorem AllSafe.new (gens : ℕ) : (Decoder.new gens).AllSafe := by
  intro j hactive
  rw [new_slot] at hactive
  cases hactive

/-- Work on one slot changes no other, and starts from what is held or from nothing. -/
theorem forall_slots_onSlot {P : Generation → Prop} (h : ∀ j, P (d.slots.getD j {})) {e : Envelope}
    {now : ℕ} {s : σ} {f : Work σ → Bool × Work σ}
    (hf : ∀ W, (W.gen.active = true ∧ P W.gen) ∨ W.gen = .started e.genId e.k.toNat now →
      P (f W).2.gen) :
    ∀ j, P ((d.onSlot e.genId e.k.toNat now s f).2.1.slots.getD j {}) := by
  obtain ⟨d', heq, honly, hheld⟩ := d.onSlot_eq e.genId e.k.toNat now s f rfl
  rw [heq]
  intro j
  by_cases hj : j = d.place e.genId
  · have hslot : d'.slots.getD j {} = d'.held e.genId := by
      rw [Decoder.held, Decoder.place, honly.gens, hj]
      rfl
    rw [hslot, hheld]
    refine hf _ ?_
    rcases d.slot_eq e.genId e.k.toNat now with ⟨hholds, hslot⟩ | ⟨-, st, hslot⟩
    · rw [hslot]
      exact .inl ⟨hholds.1, h _⟩
    · rw [hslot]
      exact .inr rfl
  · show P (d'.slots.getD j {})
    rw [honly.slots j hj]
    exact h j

/-- **The rule for slots.** What holds of every slot and is carried by a shard, from a slot that is
held or just started, holds of every slot after any datagram. -/
theorem forall_slots_receive {P : Generation → Prop} (h : ∀ j, P (d.slots.getD j {}))
    (publish : Publish σ) (data : List Byte) (now : ℕ) (s : σ)
    (hdata : ∀ e payload W r, ¬ badEnvelope e payload → e.parityCount = 0 →
      (W.gen.active = true ∧ P W.gen) ∨ W.gen = .started e.genId e.k.toNat now →
      TakesData publish e payload now W r → P r.2.gen)
    (hparity : ∀ e payload W r, ¬ badEnvelope e payload → e.parityCount ≠ 0 →
      (W.gen.active = true ∧ P W.gen) ∨ W.gen = .started e.genId e.k.toNat now →
      TakesParity publish e payload now W r → P r.2.gen) :
    ∀ j, P ((d.receive publish data now s).2.1.slots.getD j {}) := by
  have hreceives := receive_receives publish d data now s
  generalize d.receive publish data now s = r at hreceives ⊢
  cases hreceives with
  | plain => exact h
  | rejected => exact h
  | data _ _ _ hgood hcount =>
    exact forall_slots_onSlot h fun W hW =>
      hdata _ _ W _ hgood hcount hW (receiveData_takes publish _ _ now W)
  | parity _ _ _ hgood hcount =>
    have h' : ∀ j, P (d.countParity.slots.getD j {}) := h
    exact forall_slots_onSlot h' fun W hW =>
      hparity _ _ W _ hgood hcount hW (receiveParity_takes publish _ _ now W)

/-- What `slot` hands on: a safe generation, or one with no shard yet. -/
theorem AllSafe.slot (h : d.AllSafe) (genId : BitVec 32) (now : ℕ) (hk : 1 ≤ k)
    (hk' : k ≤ kMaxGeneration) :
    Safe (d.slot genId k now).1 ∨
      ((d.slot genId k now).1 = .started genId k now ∧
        Opened (d.slot genId k now).1) := by
  rcases d.slot_eq genId k now with ⟨hholds, hslot⟩ | ⟨-, st, hslot⟩
  · rw [hslot]
    exact .inl (h _ hholds.1)
  · rw [hslot]
    exact .inr ⟨rfl, .start hk hk'⟩

theorem AllSafe.slot_opened (h : d.AllSafe) (genId : BitVec 32) (now : ℕ) (hk : 1 ≤ k)
    (hk' : k ≤ kMaxGeneration) : Opened (d.slot genId k now).1 := by
  rcases h.slot genId now hk hk' with hsafe | ⟨-, hopened⟩
  · exact hsafe.toOpened
  · exact hopened

/-- A slot just started conflicts with no shard. -/
theorem not_conflictsData_started : ¬ conflictsData e (.started e.genId e.k.toNat now) := by
  rintro (hlt | ⟨-, hne⟩)
  · exact absurd hlt (lt_irrefl _)
  · exact absurd rfl hne

theorem not_conflictsParity_started : ¬ conflictsParity e (.started e.genId e.k.toNat now) := by
  rintro (⟨hclosed, -⟩ | hlt | hany)
  · exact absurd hclosed Bool.false_ne_true
  · exact absurd hlt (lt_irrefl _)
  · rw [Generation.started, List.drop_nil] at hany
    exact absurd hany Bool.false_ne_true

/-- **Any datagram** leaves every active slot safe, whatever the callback answers. -/
theorem AllSafe.receive (h : d.AllSafe) (publish : Publish σ) (data : List Byte) (now : ℕ) (s : σ) :
    (d.receive publish data now s).2.1.AllSafe := by
  refine forall_slots_receive (P := fun g => g.active = true → Safe g) h publish data now s ?_ ?_
  · rintro e payload W r hgood - (⟨hactive, hW⟩ | hstart) htakes -
    · exact htakes.safe (hW hactive).toOpened (fun _ => hW hactive) (k_of_good hgood).1
    · obtain ⟨hk, hk'⟩ := k_of_good hgood
      refine htakes.safe (hstart ▸ .start hk hk') (fun hconflict => ?_) hk
      rw [hstart] at hconflict
      exact absurd hconflict not_conflictsData_started
  · rintro e payload W r hgood hcount (⟨hactive, hW⟩ | hstart) htakes -
    · have hbad : ¬ badParity e payload := fun hbad => hgood (.inr (.inr ⟨hcount, hbad⟩))
      exact htakes.safe (hW hactive).toOpened (fun _ => hW hactive) (k_of_good hgood).1 hbad
    · have hbad : ¬ badParity e payload := fun hbad => hgood (.inr (.inr ⟨hcount, hbad⟩))
      obtain ⟨hk, hk'⟩ := k_of_good hgood
      refine htakes.safe (hstart ▸ .start hk hk') (fun hconflict => ?_) hk hbad
      rw [hstart] at hconflict
      exact absurd hconflict not_conflictsParity_started

theorem AllSafe.expire (h : d.AllSafe) (now ttl : ℕ) : (d.expire now ttl).AllSafe := by
  intro j hactive
  rcases d.expire_slot now ttl j with hslot | hslot
  · rw [hslot] at hactive
    cases hactive
  · rw [hslot] at hactive ⊢
    exact h j hactive

theorem finalize_safe {g : Generation} (st : Stats) (h : g.active = true → Safe g)
    (hactive : (finalize g st).1.active = true) : Safe (finalize g st).1 := by
  unfold finalize at hactive ⊢
  split at hactive
  · next hdone =>
    rw [if_pos hdone]
    exact h hactive
  · next hdone =>
    rw [if_neg hdone]
    split at hactive
    · next hmissing =>
      rw [if_pos hmissing]
      exact { h hactive with }
    · next hmissing =>
      rw [if_neg hmissing]
      exact h hactive

theorem AllSafe.retireAll (h : d.AllSafe) : d.retireAll.AllSafe := by
  intro j hactive
  by_cases hj : j < d.slots.length
  · rw [Decoder.retireAll, getD_map (d := ({} : Generation)) _ _ hj] at hactive ⊢
    exact finalize_safe _ (h j) hactive
  · rw [List.getD_eq_default] at hactive
    · cases hactive
    · rw [Decoder.retireAll, List.length_map]
      omega

end Decoder

/-! ### Runs -/

/-- A call on the decoder, with the callback it is given. -/
inductive Call (σ : Type)
  | receive (publish : Publish σ) (data : List Byte) (now : ℕ)
  | expire (now ttl : ℕ)
  | retireAll

namespace Decoder

/-- One call. -/
def call (state : Decoder × σ) : Call σ → Decoder × σ
  | .receive publish data now => (state.1.receive publish data now state.2).2
  | .expire now ttl => (state.1.expire now ttl, state.2)
  | .retireAll => (state.1.retireAll, state.2)

/-- One call keeps every active slot safe. -/
theorem AllSafe.after {state : Decoder × σ} (h : state.1.AllSafe) (c : Call σ) :
    (call state c).1.AllSafe := by
  cases c with
  | receive publish data now => exact h.receive publish data now state.2
  | expire now ttl => exact h.expire now ttl
  | retireAll => exact h.retireAll

/-- So does a sequence of calls. -/
theorem AllSafe.afterAll {state : Decoder × σ} (h : state.1.AllSafe) (cs : List (Call σ)) :
    (cs.foldl call state).1.AllSafe := by
  induction cs generalizing state with
  | nil => exact h
  | cons c cs ih => exact ih (h.after c)

end Decoder

end Fec
end PulseFanout
