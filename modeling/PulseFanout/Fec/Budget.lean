import PulseFanout.Framework.Lists
import PulseFanout.Fec.Checked.Recovery

/-!
# What a generation stores

A generation has room for 128 frames and 16 parity shards, and a shard can be 1026 bytes long. That
many are never there at once. A frame that came by itself is stored only after the callback has
taken it, so it is no longer than what the callback takes; a frame that was recovered is stored in
the width of the parity, but there is one recovery for at most 16 frames (`Bounded.wide`): the
frames that recovery has stored and those that are still absent are together no more than the parity
shards were when it first succeeded, and nothing but recovery stores a wide frame.

`Bounded.storedBytes_le` is the bound that follows for one generation.
-/

namespace PulseFanout
namespace Fec

open Framework

variable {σ : Type} {publish : Publish σ} {e : Envelope} {payload : List Byte} {now : ℕ}

/-! ### Recovery -/

theorem Safe.rows_length_le {g : Generation} (h : Safe g) : g.rows.length ≤ 16 := by
  have hle : g.rows.length ≤ g.parities.length := by
    have := List.length_filter_le (fun i => !(g.parities.getD i []).isEmpty)
      (List.range g.parities.length)
    rwa [List.length_range] at this
  rcases h.parities with hnil | hsixteen
  · rw [hnil] at hle
    exact hle.trans (Nat.zero_le 16)
  · exact hsixteen ▸ hle

/-- **What `try_recover` does to a safe generation**: nothing, or it stores blocks of the width of
the parity for at most 16 frames that are absent. -/
theorem tryRecover_cases (publish : Publish σ) (now : ℕ) {W : Work σ} (h : Safe W.gen) :
    (∃ ok, tryRecover publish now W = (ok, W)) ∨
      ∃ rhs : List (List Byte), W.gen.parityReceived = true ∧ W.gen.absent.length ≤ 16 ∧
        rhs.length = W.gen.absent.length ∧ (∀ block ∈ rhs, block.length ≤ Wire.maxFrame + 2) ∧
        tryRecover publish now W =
          match publishRecovered publish (W.gen.absent.zip rhs) W with
          | (false, W) => (false, W)
          | (true, W) => (true, finishRecovery now W) := by
  unfold tryRecover
  dsimp only
  split_ifs with hdone hall hfew
  · exact .inl ⟨true, rfl⟩
  · exact .inl ⟨true, rfl⟩
  · exact .inl ⟨true, rfl⟩
  have hparity : W.gen.parityReceived = true := by
    simp only [Bool.or_eq_true, Bool.not_eq_true', decide_eq_true_eq, not_or] at hdone
    exact Bool.eq_true_of_not_eq_false hdone.1.1
  obtain ⟨w, -, hw, hwidth⟩ := h.width
  have hrows : ∀ row ∈ W.gen.rows.take W.gen.missing, row ∈ W.gen.rows :=
    fun row => List.mem_of_mem_take
  have hrow : ∀ row ∈ W.gen.rows, (W.gen.parities.getD row []).length = w :=
    fun row hrow => hwidth row (Checked.row_lt h hrow).2.2
  have hlen : (W.gen.rows.take W.gen.missing).length = W.gen.missing := by
    rw [List.length_take]
    omega
  have hfirst : (W.gen.rows.take W.gen.missing).getD 0 0 ∈ W.gen.rows :=
    hrows _ (getD_mem (by omega))
  have hcount := h.rows_length_le
  -- the first row taken gives the width, and all rows at hand have it
  rw [hrow _ hfirst]
  split
  · exact .inl ⟨false, rfl⟩
  next rhs hrhs =>
  have hshape := Checked.build_shape h hrows hlen W.gen.missing_eq.symm
    (fun row hmem => hrow row (hrows row hmem)) hrhs
  split
  · exact .inl ⟨false, rfl⟩
  next S hsolve =>
  -- solving moves rows about and combines them, so the blocks keep the width of the parity
  have hsolved := (solve_shape hshape hsolve).rhs
  split_ifs
  · refine .inr ⟨S.rhs, hparity, ?_, ?_, ?_, rfl⟩
    · rw [← W.gen.missing_eq]
      omega
    · rw [hsolved.1, W.gen.missing_eq]
    · intro block hblock
      exact (hsolved.2 block hblock).trans_le hw
  · exact .inl ⟨false, rfl⟩

/-! ### Wide frames -/

/-- The frames stored in more than `limit + 2` bytes. -/
def Generation.wide (limit : ℕ) (g : Generation) : ℕ :=
  g.data.countP fun block => limit + 2 < block.length

/-- What a generation stores if no frame the callback takes is longer than `limit`. -/
structure Bounded (limit : ℕ) (g : Generation) : Prop where
  frames : g.data.length ≤ kMaxGeneration
  sizes : ∀ block ∈ g.data, block.length ≤ Wire.maxFrame + 2
  wide : 0 < g.wide limit → g.parityReceived = true ∧ g.wide limit + g.absent.length ≤ 16

section Frames

variable {limit : ℕ} {g : Generation}

/-- What is still absent when a frame is put at hand. -/
theorem absent_put {i : ℕ} (hi : i < g.received.length) (block : List Byte) :
    Generation.absent { g with data := g.data.set i block, received := g.received.set i true } =
      g.absent.filter (· != i) := by
  unfold Generation.absent
  rw [List.filter_filter]
  refine List.filter_congr fun j _ => ?_
  rw [getD_set hi]
  by_cases hj : j = i
  · rw [if_pos hj]
    simp [hj]
  · rw [if_neg hj]
    simp [hj]

theorem absent_nodup (g : Generation) : g.absent.Nodup := List.nodup_range.filter _

theorem Bounded.start (limit : ℕ) (e : Envelope) (now : ℕ) :
    Bounded limit (.started e.genId e.k.toNat now) where
  frames := Nat.zero_le _
  sizes := fun _ hblock => absurd hblock List.not_mem_nil
  wide := fun hwide => absurd hwide (Nat.lt_irrefl 0)

theorem wide_ensure (hlengths : g.data.length = g.received.length) (k : ℕ) :
    (g.ensure k).wide limit = g.wide limit := by
  rw [g.ensure_eq k hlengths, Generation.wide, List.countP_append, List.countP_replicate,
    if_neg (by simp)]
  rfl

theorem absent_ensure (hopened : Opened g) {k : ℕ} (hle : g.k ≤ k) :
    (g.ensure k).absent = g.absent := by
  have hpos := hopened.k_pos
  rw [g.ensure_eq k hopened.lengths]
  unfold Generation.absent
  dsimp only
  rw [if_neg (by omega)]
  exact List.filter_congr fun i _ => by rw [getD_append_replicate]

/-- `ensure` stores nothing, and with parity accepted it changes nothing that counts. -/
theorem Bounded.ensure (h : Bounded limit g) (hopened : Opened g) {k : ℕ}
    (hsame : g.parityReceived = true → g.k ≤ k) : Bounded limit (g.ensure k) := by
  refine ⟨?_, ?_, ?_⟩
  · rw [g.ensure_eq k hopened.lengths]
    dsimp only
    rw [List.length_append, List.length_replicate]
    have hframes := h.frames
    have hk := hopened.k_le
    have hpos := hopened.k_pos
    split <;> omega
  · rw [g.ensure_eq k hopened.lengths]
    intro block hblock
    rcases List.mem_append.mp hblock with hblock | hblock
    · exact h.sizes block hblock
    · rw [List.eq_of_mem_replicate hblock]
      exact Nat.zero_le _
  · rw [wide_ensure hopened.lengths]
    intro hpos
    obtain ⟨hparity, hfew⟩ := h.wide hpos
    rw [absent_ensure hopened (hsame hparity)]
    rw [g.ensure_eq k hopened.lengths]
    exact ⟨hparity, hfew⟩

/-- A frame that came by itself. -/
theorem Bounded.put (h : Bounded limit g) (hlimit : limit ≤ Wire.maxFrame) {i : ℕ}
    (hi : i < g.received.length) {block : List Byte} (hblock : block.length ≤ limit + 2) :
    Bounded limit { g with data := g.data.set i block, received := g.received.set i true } := by
  refine ⟨?_, ?_, ?_⟩
  · dsimp only
    rw [List.length_set]
    exact h.frames
  · intro b hb
    rcases List.mem_or_eq_of_mem_set hb with hb | rfl
    · exact h.sizes b hb
    · omega
  · intro hpos
    have hcount := countP_set_le (fun block => limit + 2 < block.length) g.data i block
    rw [if_neg (by simpa using hblock)] at hcount
    change 0 < (g.data.set i block).countP _ at hpos
    obtain ⟨hparity, hfew⟩ := h.wide (hpos.trans_le hcount)
    refine ⟨hparity, Nat.le_trans (Nat.add_le_add hcount ?_) hfew⟩
    rw [absent_put hi]
    exact List.length_filter_le _ _

/-- A frame that was recovered. It was absent before. -/
theorem Bounded.recover (h : Bounded limit g) (hparity : g.parityReceived = true)
    (hfew : g.wide limit + g.absent.length ≤ 16) {i : ℕ} (hi : i < g.received.length)
    (habsent : i ∈ g.absent) {block : List Byte} (hblock : block.length ≤ Wire.maxFrame + 2)
    {g' : Generation}
    (hg' : { g with data := g.data.set i block, received := g.received.set i true } = g') :
    Bounded limit g' ∧ g'.wide limit + g'.absent.length ≤ 16 := by
  subst hg'
  have hcount := countP_set_le (fun block => limit + 2 < block.length) g.data i block
  -- one wide block more at most, but one absent frame less
  have hless : (g.absent.filter (· != i)).length + 1 = g.absent.length := by
    rw [← (absent_nodup g).erase_eq_filter, List.length_erase_of_mem habsent]
    have := List.length_pos_of_mem habsent
    omega
  have hsum : (g.data.set i block).countP (fun block => limit + 2 < block.length) +
      (g.absent.filter (· != i)).length ≤ 16 := by
    unfold Generation.wide at hfew
    split at hcount <;> omega
  have hfew' : Generation.wide limit
      { g with data := g.data.set i block, received := g.received.set i true } +
      (Generation.absent
        { g with data := g.data.set i block, received := g.received.set i true }).length ≤ 16 := by
    rw [absent_put hi]
    exact hsum
  refine ⟨⟨?_, ?_, fun _ => ⟨hparity, hfew'⟩⟩, hfew'⟩
  · dsimp only
    rw [List.length_set]
    exact h.frames
  · intro b hb
    rcases List.mem_or_eq_of_mem_set hb with hb | rfl
    · exact h.sizes b hb
    · exact hblock

/-- The frames of one recovery. -/
theorem publishRecovered_bounded (publish : Publish σ) (blocks : List (ℕ × List Byte)) {W : Work σ}
    (h : Bounded limit W.gen) (hparity : W.gen.parityReceived = true)
    (hfew : W.gen.wide limit + W.gen.absent.length ≤ 16) (hnodup : (blocks.map Prod.fst).Nodup)
    (hblocks : ∀ b ∈ blocks, b.1 ∈ W.gen.absent ∧ b.1 < W.gen.received.length ∧
      b.2.length ≤ Wire.maxFrame + 2) :
    Bounded limit (publishRecovered publish blocks W).2.gen := by
  induction blocks generalizing W with
  | nil => exact h
  | cons b blocks ih =>
    obtain ⟨i, block⟩ := b
    rw [List.map_cons, List.nodup_cons] at hnodup
    obtain ⟨habsent, hi, hblock⟩ := hblocks (i, block) List.mem_cons_self
    unfold publishRecovered
    dsimp only
    split
    · exact h
    · obtain ⟨hnext, hfew'⟩ := h.recover hparity hfew hi habsent hblock rfl
      refine ih hnext hparity hfew' hnodup.2 fun b hb => ?_
      -- the frames that are left are other ones, and still absent
      obtain ⟨habsent', hi', hblock'⟩ := hblocks b (List.mem_cons_of_mem _ hb)
      have hne : b.1 ≠ i := by
        rintro rfl
        exact hnodup.1 (List.mem_map.mpr ⟨b, hb, rfl⟩)
      refine ⟨?_, ?_, hblock'⟩
      · rw [absent_put hi]
        exact List.mem_filter.mpr ⟨habsent', by simpa using hne⟩
      · dsimp only
        rwa [List.length_set]

/-- **Recovery** stores wide frames for what was absent, once. -/
theorem tryRecover_bounded (publish : Publish σ) (now : ℕ) {W : Work σ} (hsafe : Safe W.gen)
    (h : Bounded limit W.gen) : Bounded limit (tryRecover publish now W).2.gen := by
  rcases tryRecover_cases publish now hsafe with
    ⟨ok, hstill⟩ | ⟨rhs, hparity, hsixteen, hlength, hblocks, hrun⟩
  · rw [hstill]
    exact h
  have hfew : W.gen.wide limit + W.gen.absent.length ≤ 16 := by
    by_cases hpos : 0 < W.gen.wide limit
    · exact (h.wide hpos).2
    · omega
  have hpublished : Bounded limit
      (publishRecovered publish (W.gen.absent.zip rhs) W).2.gen := by
    refine publishRecovered_bounded publish _ h hparity hfew ?_ fun b hb => ?_
    · rw [List.map_fst_zip hlength.ge]
      exact absent_nodup W.gen
    · obtain ⟨habsent, hblock⟩ := List.of_mem_zip hb
      have hlt : b.1 < W.gen.k := List.mem_range.mp (List.mem_of_mem_filter habsent)
      exact ⟨habsent, hsafe.lengths ▸ hlt.trans_le hsafe.sized, hblocks _ hblock⟩
  rw [hrun]
  generalize publishRecovered publish (W.gen.absent.zip rhs) W = result at hpublished ⊢
  obtain ⟨ok, W'⟩ := result
  cases ok with
  | false => exact hpublished
  | true => exact ⟨hpublished.frames, hpublished.sizes, hpublished.wide⟩

end Frames

/-! ### A shard -/

/-- The callback takes no frame longer than `limit`. -/
def Narrow (limit : ℕ) (publish : Publish σ) : Prop :=
  ∀ frame recovered reason s, (publish frame recovered reason s).1 = true → frame.length ≤ limit

section Shards

variable {limit : ℕ} {W : Work σ} {r : Bool × Work σ}

/-- **A data shard** is stored after the callback has taken it. -/
theorem TakesData.bounded (hr : TakesData publish e payload now W r)
    (hnarrow : Narrow limit publish) (hlimit : limit ≤ Wire.maxFrame) (hopened : Opened W.gen)
    (h : Bounded limit W.gen) (hk : 1 ≤ e.k.toNat) (hgood : ¬ Decoder.badData e payload) :
    Bounded limit r.2.gen := by
  have hsame : ¬ conflictsData e W.gen → W.gen.parityReceived = true → W.gen.k ≤ e.k.toNat :=
    fun hno _ => Nat.le_of_not_lt fun hlt => hno (.inl hlt)
  cases hr with
  | refused => exact h
  | beyond hno => exact h.ensure hopened (hsame hno)
  | unpublished hno =>
    have hensured := h.ensure hopened (hsame hno)
    exact ⟨hensured.frames, hensured.sizes, hensured.wide⟩
  | @stored hno hindex out hpub g hg =>
    subst hg
    have hensured := h.ensure hopened (hsame hno)
    have hsafe := (hopened.ensure hk (hsame hno)).touch now
    have htouched : Bounded limit ((W.gen.ensure e.k.toNat).touch now) :=
      ⟨hensured.frames, hensured.sizes, hensured.wide⟩
    -- the block is as long as the frame, with two bytes of length
    have hblock : (protectedFrame payload e.protectedLen.toNat).length ≤ limit + 2 := by
      have hpayload : payload.length ≤ limit :=
        hnarrow payload false _ W.out (congrArg Prod.fst hpub)
      have hlen : payload.length = e.protectedLen.toNat := by
        by_contra hne
        exact hgood (.inr (.inl hne))
      rw [protectedFrame_length hlen.le]
      omega
    have hi : e.index.toNat < ((W.gen.ensure e.k.toNat).touch now).received.length :=
      hsafe.lengths ▸ hindex.trans_le hsafe.sized
    exact tryRecover_bounded publish now (hsafe.put hindex _) (htouched.put hlimit hi hblock)

/-- **A parity shard** is stored beside the frames. -/
theorem TakesParity.bounded (hr : TakesParity publish e payload now W r) (hopened : Opened W.gen)
    (h : Bounded limit W.gen) (hk : 1 ≤ e.k.toNat) (hgood : ¬ Decoder.badParity e payload) :
    Bounded limit r.2.gen := by
  have hclosed : ¬ conflictsParity e W.gen → Bounded limit (W.gen.close e now) := by
    intro hno
    have hsame : W.gen.parityReceived = true → W.gen.k ≤ e.k.toNat := by
      intro hp
      by_contra hlt
      exact hno (.inl ⟨hp, .inl (by omega)⟩)
    have hensured := h.ensure hopened hsame
    exact ⟨hensured.frames, hensured.sizes, hensured.wide⟩
  cases hr with
  | refused => exact h
  | width hno => exact hclosed hno
  | @stored hno hwidth g hg =>
    subst hg
    have hstored := hopened.storeParity hno hk hgood hwidth
    have hclose := hclosed hno
    refine tryRecover_bounded publish now hstored ⟨hclose.frames, hclose.sizes, fun hpos => ?_⟩
    exact ⟨rfl, (hclose.wide hpos).2⟩

end Shards

/-! ### Bytes -/

/-- The payload bytes in the shards of a generation. -/
def Generation.storedBytes (g : Generation) : ℕ :=
  (g.data.map List.length).sum + (g.parities.map List.length).sum

/-- A list of which few are longer than `short`. -/
theorem sum_length_le {blocks : List (List Byte)} {short long : ℕ}
    (hlong : ∀ block ∈ blocks, block.length ≤ long) (hle : short ≤ long) :
    (blocks.map List.length).sum ≤
      blocks.length * short +
        blocks.countP (fun block => short < block.length) * (long - short) := by
  induction blocks with
  | nil => exact Nat.zero_le _
  | cons block blocks ih =>
    have hblock := hlong block List.mem_cons_self
    have hrest := ih fun b hb => hlong b (List.mem_cons_of_mem _ hb)
    rw [List.map_cons, List.sum_cons, List.length_cons, List.countP_cons, Nat.add_mul, Nat.one_mul,
      Nat.add_mul]
    split
    · rw [Nat.one_mul]
      omega
    · next hshort =>
      rw [decide_eq_true_iff] at hshort
      omega

/-- **What one generation stores**: 128 frames that the callback takes, 16 of them at most in the
width of the parity, and 16 parity shards. -/
theorem Bounded.storedBytes_le {limit : ℕ} {g : Generation} (h : Bounded limit g)
    (hopened : Opened g) (hlimit : limit ≤ Wire.maxFrame) :
    g.storedBytes ≤ kMaxGeneration * (limit + 2) + 16 * (Wire.maxFrame - limit) +
      16 * (Wire.maxFrame + 2) := by
  -- every block counts `limit + 2` bytes, and a wide one the difference on top
  have hdata := sum_length_le h.sizes (Nat.add_le_add_right hlimit 2)
  have hframes := Nat.mul_le_mul_right (limit + 2) h.frames
  have hwide : g.wide limit ≤ 16 := by
    by_cases hpos : 0 < g.wide limit
    · exact Nat.le_of_add_right_le (h.wide hpos).2
    · omega
  have hmore := Nat.mul_le_mul_right (Wire.maxFrame + 2 - (limit + 2)) hwide
  -- a parity row is empty or of the common width
  have hparities : (g.parities.map List.length).sum ≤ 16 * (Wire.maxFrame + 2) := by
    obtain ⟨w, -, hw, hrows⟩ := hopened.width
    have hsizes : ∀ block ∈ g.parities, block.length ≤ Wire.maxFrame + 2 := by
      intro block hblock
      obtain ⟨row, hrow, rfl⟩ := List.getElem_of_mem hblock
      by_cases hnil : g.parities.getD row [] = []
      · rw [List.getD_eq_getElem _ _ hrow] at hnil
        rw [hnil]
        exact Nat.zero_le _
      · have hlength := hrows row hnil
        rw [List.getD_eq_getElem _ _ hrow] at hlength
        exact hlength.trans_le hw
    have hcount : g.parities.length ≤ 16 := by
      rcases hopened.parities with hnil | hsixteen
      · rw [hnil]
        exact Nat.zero_le 16
      · exact hsixteen.le
    have hsum := List.sum_le_card_nsmul (g.parities.map List.length) (Wire.maxFrame + 2) <| by
      intro n hn
      obtain ⟨block, hblock, rfl⟩ := List.mem_map.mp hn
      exact hsizes block hblock
    rw [List.length_map, smul_eq_mul] at hsum
    exact hsum.trans (Nat.mul_le_mul_right _ hcount)
  unfold Generation.storedBytes
  unfold Generation.wide at hmore
  omega

/-! ### The decoder -/

namespace Decoder

variable {d : Decoder} {limit : ℕ}

/-- The payload bytes in all its generations. -/
def storedBytes (d : Decoder) : ℕ := (d.slots.map Generation.storedBytes).sum

/-- Every slot is empty or bounded. -/
def AllBounded (limit : ℕ) (d : Decoder) : Prop :=
  ∀ j, d.slots.getD j {} = {} ∨ Safe (d.slots.getD j {}) ∧ Bounded limit (d.slots.getD j {})

theorem AllBounded.new (limit gens : ℕ) : (Decoder.new gens).AllBounded limit :=
  fun j => .inl (new_slot gens j)

/-- **Any datagram.** -/
theorem AllBounded.receive (h : d.AllBounded limit) (hnarrow : Narrow limit publish)
    (hlimit : limit ≤ Wire.maxFrame) (data : List Byte) (now : ℕ) (s : σ) :
    (d.receive publish data now s).2.1.AllBounded limit := by
  -- an active slot is not an empty one, and a new one has room
  have hslot : ∀ {e : Envelope} {payload : List Byte} {g : Generation}, ¬ badEnvelope e payload →
      ((g.active = true ∧ (g = {} ∨ Safe g ∧ Bounded limit g)) ∨
        g = .started e.genId e.k.toNat now) →
      (Opened g ∧ Bounded limit g) ∧ (g = .started e.genId e.k.toNat now ∨ Safe g) := by
    rintro e payload g hgood (⟨hactive, rfl | ⟨hsafe, hbounded⟩⟩ | rfl)
    · cases hactive
    · exact ⟨⟨hsafe.toOpened, hbounded⟩, .inr hsafe⟩
    · obtain ⟨hk, hk'⟩ := k_of_good hgood
      exact ⟨⟨.start hk hk', .start limit e now⟩, .inl rfl⟩
  refine forall_slots_receive
    (P := fun g => g = {} ∨ Safe g ∧ Bounded limit g) h publish data now s ?_ ?_
  · intro e payload W r hgood hcount hW htakes
    obtain ⟨⟨hopened, hbounded⟩, hnew⟩ := hslot hgood hW
    have hk := (k_of_good hgood).1
    have hbad : ¬ badData e payload := fun hbad => hgood (.inr (.inl ⟨hcount, hbad⟩))
    refine .inr ⟨htakes.safe hopened (fun hconflict => ?_) hk,
      htakes.bounded hnarrow hlimit hopened hbounded hk hbad⟩
    rcases hnew with hnew | hsafe
    · rw [hnew] at hconflict
      exact absurd hconflict not_conflictsData_started
    · exact hsafe
  · intro e payload W r hgood hcount hW htakes
    obtain ⟨⟨hopened, hbounded⟩, hnew⟩ := hslot hgood hW
    have hk := (k_of_good hgood).1
    have hbad : ¬ badParity e payload := fun hbad => hgood (.inr (.inr ⟨hcount, hbad⟩))
    refine .inr ⟨htakes.safe hopened (fun hconflict => ?_) hk hbad,
      htakes.bounded hopened hbounded hk hbad⟩
    rcases hnew with hnew | hsafe
    · rw [hnew] at hconflict
      exact absurd hconflict not_conflictsParity_started
    · exact hsafe

theorem AllBounded.expire (h : d.AllBounded limit) (now ttl : ℕ) :
    (d.expire now ttl).AllBounded limit := by
  intro j
  rcases d.expire_slot now ttl j with hslot | hslot
  · exact .inl hslot
  · rw [hslot]
    exact h j

/-- **What a decoder stores.** -/
theorem AllBounded.storedBytes_le (h : d.AllBounded limit) (hlimit : limit ≤ Wire.maxFrame) :
    d.storedBytes ≤ d.gens * (kMaxGeneration * (limit + 2) + 16 * (Wire.maxFrame - limit) +
      16 * (Wire.maxFrame + 2)) := by
  have hsum := List.sum_le_card_nsmul (d.slots.map Generation.storedBytes)
    (kMaxGeneration * (limit + 2) + 16 * (Wire.maxFrame - limit) + 16 * (Wire.maxFrame + 2)) <| by
    intro n hn
    obtain ⟨g, hg, rfl⟩ := List.mem_map.mp hn
    obtain ⟨j, hj, rfl⟩ := List.getElem_of_mem hg
    have hslot := h j
    rw [List.getD_eq_getElem _ _ hj] at hslot
    rcases hslot with hempty | ⟨hsafe, hbounded⟩
    · rw [hempty]
      exact Nat.zero_le _
    · exact hbounded.storedBytes_le hsafe.toOpened hlimit
  rwa [List.length_map, d.slots_length, smul_eq_mul] at hsum

end Decoder

end Fec
end PulseFanout
