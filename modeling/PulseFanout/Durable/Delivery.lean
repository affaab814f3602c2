import PulseFanout.Durable.Relay

/-!
# The local side of the receiving relay

`deliver` offers the first row of the inbox to the local receiver until that answers with the
byte one, and retires it then. `Delivery` says what holds of the two at every moment, from the
log of what passed between them:

* a row was retired only after it was acknowledged, and exactly the first `r` rows were;
* rows are offered in the order of the inbox, and again only while they are not retired
  (`InOrder`);
* at most one row is under way on the local connection, and a byte that waits there answers
  it (`Asked`), so the byte `deliver` reads is never that of an earlier row.

Each way `deliver` can move has its lemma, and `Delivery.step` puts them together.
-/

namespace PulseFanout
namespace Durable

open Framework

/-! ### The log -/

/-- The ids offered, in the order of the offers. -/
def offers (log : List LocalEvent) : List ℕ :=
  log.filterMap fun
    | .offered id _ => some id
    | _ => none

theorem offers_offered (log : List LocalEvent) (id : ℕ) (payload : List Byte) :
    offers (log ++ [.offered id payload]) = offers log ++ [id] :=
  List.filterMap_append

theorem offers_other (log : List LocalEvent) {e : LocalEvent}
    (he : ∀ id payload, e ≠ .offered id payload) : offers (log ++ [e]) = offers log := by
  rw [offers, List.filterMap_append]
  cases e with
  | offered id payload => exact absurd rfl (he id payload)
  | _ => exact List.append_nil _

/-- The id offered last. -/
def latest (log : List LocalEvent) : ℕ := (offers log).getLast?.getD 0

theorem latest_offered (log : List LocalEvent) (id : ℕ) (payload : List Byte) :
    latest (log ++ [.offered id payload]) = id := by
  rw [latest, offers_offered, List.getLast?_concat]
  rfl

theorem latest_other (log : List LocalEvent) {e : LocalEvent}
    (he : ∀ id payload, e ≠ .offered id payload) : latest (log ++ [e]) = latest log := by
  rw [latest, offers_other log he, latest]

/-- Rows are offered in the order of the inbox, and again only while unretired. -/
structure InOrder (accepted : List (Row Session)) (log : List LocalEvent) : Prop where
  /-- What is offered is an accepted row, and exactly the rows before it have been retired. -/
  first : ∀ pre id payload post, log = pre ++ .offered id payload :: post →
    (∃ row ∈ accepted, row.id = id ∧ row.payload = payload) ∧
      ∀ id', .retired id' ∈ pre ↔ 1 ≤ id' ∧ id' < id
  /-- The next offer is of the same row or of the next one. -/
  steps : (0 :: offers log).IsChain fun id next => next = id ∨ next = id + 1

namespace InOrder

variable {accepted accepted' : List (Row Session)} {log : List LocalEvent}

theorem nil : InOrder accepted [] where
  first := fun _ _ _ _ hlog =>
    absurd hlog.symm (List.append_ne_nil_of_right_ne_nil _ (List.cons_ne_nil _ _))
  steps := List.isChain_singleton _

theorem mono (h : InOrder accepted log) (hsub : ∀ row ∈ accepted, row ∈ accepted') :
    InOrder accepted' log := by
  refine ⟨fun pre id payload post hlog => ?_, h.steps⟩
  obtain ⟨⟨row, hrow, heq⟩, hbefore⟩ := h.first pre id payload post hlog
  exact ⟨⟨row, hsub row hrow, heq⟩, hbefore⟩

/-- The first condition, when one event is added. -/
theorem first_concat (h : InOrder accepted log) {e : LocalEvent}
    (he : ∀ id payload, e = .offered id payload →
      (∃ row ∈ accepted, row.id = id ∧ row.payload = payload) ∧
        ∀ id', .retired id' ∈ log ↔ 1 ≤ id' ∧ id' < id) (pre : List LocalEvent) (id : ℕ)
    (payload : List Byte) (post : List LocalEvent)
    (hlog : log ++ [e] = pre ++ .offered id payload :: post) :
    (∃ row ∈ accepted, row.id = id ∧ row.payload = payload) ∧
      ∀ id', .retired id' ∈ pre ↔ 1 ≤ id' ∧ id' < id := by
  rcases List.eq_nil_or_concat post with rfl | ⟨post', last, rfl⟩
  · obtain ⟨rfl, hlast⟩ := List.append_inj' hlog rfl
    exact he id payload (List.singleton_inj.mp hlast)
  · rw [List.concat_eq_append, ← List.cons_append, ← List.append_assoc] at hlog
    obtain ⟨rfl, -⟩ := List.append_inj' hlog rfl
    exact h.first pre id payload post' rfl

/-- A row is offered for the first time, or again. -/
theorem offered (h : InOrder accepted log) {row : Row Session} (hrow : row ∈ accepted)
    (hretired : ∀ id', .retired id' ∈ log ↔ 1 ≤ id' ∧ id' < row.id)
    (hnext : row.id = latest log ∨ row.id = latest log + 1) :
    InOrder accepted (log ++ [.offered row.id row.payload]) := by
  refine ⟨h.first_concat fun id payload heq => ?_, ?_⟩
  · injection heq with hid hpayload
    subst hid hpayload
    exact ⟨⟨row, hrow, rfl, rfl⟩, hretired⟩
  · rw [offers_offered, ← List.cons_append, List.isChain_append]
    refine ⟨h.steps, List.isChain_singleton _, fun id hid next hhead => ?_⟩
    rw [List.getLast?_cons, Option.mem_some_iff] at hid
    rw [List.head?_cons, Option.mem_some_iff] at hhead
    rw [← hid, ← hhead]
    exact hnext

/-- Something else happens. -/
theorem other (h : InOrder accepted log) {e : LocalEvent}
    (he : ∀ id payload, e ≠ .offered id payload) : InOrder accepted (log ++ [e]) := by
  refine ⟨h.first_concat fun id payload heq => absurd heq (he id payload), ?_⟩
  rw [offers_other log he]
  exact h.steps

end InOrder

/-! ### The invariant -/

/-- What `deliver` and the local receiver have exchanged on their connection: at most one row
is under way, and a byte that waits to be read answers it. -/
def Asked (R : RecvRelay) : Prop :=
  ∀ c, R.peer = some c →
    match R.deliver with
    | .offered row =>
      (c.reply = [] ∧ c.out <+: localFrames.put (localFrameOf row)) ∨
        (c.out = [] ∧ ∃ byte, c.reply <+: [byte] ∧ (byte = 1 → .acked row.id ∈ R.log))
    | _ => c.out = [] ∧ c.reply = []

/-- What holds of the inbox and its local side, with `r` rows retired. -/
structure Delivery (R : RecvRelay) (r : ℕ) : Prop where
  spooled : Spooled R.inbox R.accepted r
  /-- The rows retired are the first `r`. -/
  retired : ∀ id, .retired id ∈ R.log ↔ 1 ≤ id ∧ id ≤ r
  /-- None was retired that the local receiver had not acknowledged. -/
  acked : ∀ id, .retired id ∈ R.log → .acked id ∈ R.log
  offers : InOrder R.accepted R.log
  /-- `deliver` works on the first row. -/
  holding : ∀ row, R.deliver.row? = some row → R.inbox.pending.head? = some row
  /-- What it is about to retire was acknowledged. -/
  got : ∀ row, R.deliver = .got row → .acked row.id ∈ R.log
  /-- Every row retired was offered, and none after the next one. -/
  upto : r ≤ latest R.log ∧ latest R.log ≤ r + 1
  /-- The row under way is the one offered last. -/
  current : ∀ row, R.deliver = .offered row ∨ R.deliver = .got row → latest R.log = row.id
  asked : Asked R

namespace Delivery

variable {R R' : RecvRelay} {r : ℕ}

/-- A step that leaves the inbox and the log alone. -/
theorem same (h : Delivery R r) (hinbox : R'.inbox = R.inbox) (hacc : R'.accepted = R.accepted)
    (hlog : R'.log = R.log)
    (hholding : ∀ row, R'.deliver.row? = some row → R.inbox.pending.head? = some row)
    (hgot : ∀ row, R'.deliver = .got row → .acked row.id ∈ R.log)
    (hcurrent : ∀ row, R'.deliver = .offered row ∨ R'.deliver = .got row →
      latest R.log = row.id)
    (hasked : Asked R') : Delivery R' r := by
  refine ⟨?_, ?_, ?_, ?_, ?_, ?_, ?_, ?_, hasked⟩
  · rw [hinbox, hacc]; exact h.spooled
  · rw [hlog]; exact h.retired
  · rw [hlog]; exact h.acked
  · rw [hacc, hlog]; exact h.offers
  · rw [hinbox]; exact hholding
  · rw [hlog]; exact hgot
  · rw [hlog]; exact h.upto
  · rw [hlog]; exact hcurrent

theorem restart (h : Delivery R r) : Delivery R.restart r :=
  h.same rfl rfl rfl (fun _ hrow => (nomatch hrow)) (fun _ hrow => (nomatch hrow))
    (fun _ hrow => hrow.elim nofun nofun) (fun _ hc => (nomatch hc))

/-- A row is accepted. -/
theorem append (h : Delivery R r) {inbox : Store Session} {row : Row Session}
    (hroom : R.inbox.lastId + 1 < 2 ^ 63) (hid : row.id = R.inbox.lastId + 1)
    (hsize : 1 ≤ row.payload.length ∧ row.payload.length ≤ maxFrame)
    (hpending : inbox.pending = R.inbox.pending ++ [row])
    (hlast : inbox.lastId = R.inbox.lastId + 1) :
    Delivery { R with inbox, accepted := R.accepted ++ [row] } r where
  spooled := h.spooled.append hroom hid hsize hpending hlast
  retired := h.retired
  acked := h.acked
  offers := h.offers.mono fun row' => List.mem_append_left _
  holding := fun row' hrow => by
    dsimp only
    rw [hpending]
    exact head?_append_of_some (h.holding row' hrow) _
  got := h.got
  upto := h.upto
  current := h.current
  asked := h.asked

/-! ### Every way `deliver` can move -/

/-- With no row offered, nothing is on the connection. -/
theorem quiet (h : Delivery R r) {c : LocalConn} (hpeer : R.peer = some c)
    (hpc : ∀ row, R.deliver ≠ .offered row) : c.out = [] ∧ c.reply = [] := by
  have hasked := h.asked c hpeer
  cases hdeliver : R.deliver with
  | offered row => exact absurd hdeliver (hpc row)
  | _ =>
    rw [hdeliver] at hasked
    exact hasked

/-- The first row is sent to the local receiver. -/
theorem offered (h : Delivery R r) {row : Row Session} {c : LocalConn} (hpc : R.deliver = .have row)
    (hpeer : R.peer = some c) :
    Delivery { R with
      deliver := .offered row
      peer := some (if c.link then { c with out := c.out ++ localFrames.put (localFrameOf row) }
        else c)
      log := R.log ++ [.offered row.id row.payload] } r := by
  have hrow : R.deliver.row? = some row := by rw [hpc]; rfl
  obtain ⟨hget, hid⟩ := h.spooled.first (h.holding row hrow)
  have hquiet := h.quiet hpeer (by rw [hpc]; exact nofun)
  have hlatest := h.upto
  refine ⟨h.spooled, ?_, ?_, ?_, ?_, fun _ hgot => (nomatch hgot), ?_, ?_, ?_⟩
  · intro id
    simp only [List.mem_append, List.mem_singleton, reduceCtorEq, or_false]
    exact h.retired id
  · intro id hret
    simp only [List.mem_append, List.mem_singleton, reduceCtorEq, or_false] at hret ⊢
    exact h.acked id hret
  · refine h.offers.offered (List.mem_of_getElem? hget) (fun id' => ?_) (by omega)
    rw [h.retired, hid, Nat.lt_succ_iff]
  · intro row' hrow'
    rw [← Option.some.inj hrow']
    exact h.holding row hrow
  · dsimp only
    rw [latest_offered]
    omega
  · intro row' hrow'
    dsimp only
    rw [latest_offered]
    rcases hrow' with hrow' | hrow'
    · injection hrow' with heq
      rw [heq]
    · cases hrow'
  · -- the frame is all there is on the connection
    intro c' hc'
    rw [← Option.some.inj hc']
    left
    split
    · exact ⟨hquiet.2, by rw [hquiet.1, List.nil_append]⟩
    · exact ⟨hquiet.2, by rw [hquiet.1]; exact List.nil_prefix⟩

/-- The local receiver has acknowledged the row, or not. -/
theorem logged (h : Delivery R r) (id : ℕ) (yes : Prop) [Decidable yes] :
    (∀ id', .retired id' ∈ (if yes then R.log ++ [.acked id] else R.log) ↔ .retired id' ∈ R.log) ∧
      (∀ e ∈ R.log, e ∈ if yes then R.log ++ [.acked id] else R.log) ∧
      latest (if yes then R.log ++ [.acked id] else R.log) = latest R.log ∧
      InOrder R.accepted (if yes then R.log ++ [.acked id] else R.log) := by
  split
  · refine ⟨fun id' => ?_, fun e he => List.mem_append_left _ he,
      latest_other _ fun _ _ => nofun, h.offers.other fun _ _ => nofun⟩
    simp only [List.mem_append, List.mem_singleton, reduceCtorEq, or_false]
  · exact ⟨fun _ => Iff.rfl, fun _ he => he, rfl, h.offers⟩

/-- The local receiver answers. -/
theorem answered (h : Delivery R r) {row : Row Session} {c : LocalConn} (byte : Byte)
    {item : BitVec 16 × List Byte} {rest : List Byte} (hpc : R.deliver = .offered row)
    (hpeer : R.peer = some c) (hitem : localFrames.get c.out = .item item rest) :
    Delivery { R with
      peer := some { c with
        out := rest
        reply := if c.link then c.reply ++ [byte] else c.reply }
      log := if byte = 1 then R.log ++ [.acked row.id] else R.log } r := by
  have hrow : R.deliver.row? = some row := by rw [hpc]; rfl
  obtain ⟨hget, -⟩ := h.spooled.first (h.holding row hrow)
  have hsize := h.spooled.sized row (List.mem_of_getElem? hget)
  have hunder := h.asked c hpeer
  rw [hpc] at hunder
  -- the frame was not read before, so nothing waits in the other direction
  obtain ⟨hreply, hpre⟩ : c.reply = [] ∧ c.out <+: localFrames.put (localFrameOf row) := by
    rcases hunder with hunder | ⟨hout, -⟩
    · exact hunder
    · rw [hout, localFrames.get_nil] at hitem
      cases hitem
  obtain ⟨-, rfl⟩ := localFrames.get_of_prefix (localFrameOf_valid hsize) hpre hitem
  obtain ⟨hretired, hsub, hlatest, hoffers⟩ := h.logged row.id (byte = 1)
  refine ⟨h.spooled, fun id => (hretired id).trans (h.retired id),
    fun id hret => hsub _ (h.acked id ((hretired id).mp hret)), hoffers, h.holding,
    fun row' hgot => hsub _ (h.got row' hgot), ?_, ?_, ?_⟩
  · rw [hlatest]; exact h.upto
  · rw [hlatest]; exact h.current
  · intro c' hc'
    rw [← Option.some.inj hc']
    dsimp only
    rw [hpc]
    refine Or.inr ⟨rfl, byte, ?_, fun hone => ?_⟩
    · rw [hreply]
      split
      · exact List.prefix_rfl
      · exact List.nil_prefix
    · rw [if_pos hone]
      exact List.mem_append_right _ (List.mem_singleton_self _)

/-- `deliver` reads the byte one. -/
theorem read (h : Delivery R r) {row : Row Session} {c : LocalConn} {rest : List Byte}
    (hpc : R.deliver = .offered row) (hpeer : R.peer = some c) (hreply : c.reply = 1 :: rest) :
    Delivery { R with deliver := .got row, peer := some { c with reply := rest } } r := by
  have hrow : R.deliver.row? = some row := by rw [hpc]; rfl
  have hunder := h.asked c hpeer
  rw [hpc] at hunder
  rcases hunder with ⟨hnil, -⟩ | ⟨hout, answer, hpre, hack⟩
  · rw [hreply] at hnil
    cases hnil
  · rw [hreply, List.cons_prefix_cons, List.prefix_nil] at hpre
    obtain ⟨hone, rfl⟩ := hpre
    refine h.same rfl rfl rfl (fun row' hrow' => ?_) (fun row' hgot => ?_) (fun row' hrow' => ?_)
      (fun c' hc' => ?_)
    · rw [← Option.some.inj hrow']
      exact h.holding row hrow
    · injection hgot with heq
      rw [← heq]
      exact hack hone.symm
    · rcases hrow' with hrow' | hrow'
      · cases hrow'
      · injection hrow' with heq
        rw [← heq]
        exact h.current row (Or.inl hpc)
    · rw [← Option.some.inj hc']
      exact ⟨hout, rfl⟩

/-- The acknowledged row is retired. -/
theorem retire (h : Delivery R r) {row : Row Session} (hpc : R.deliver = .got row) :
    Delivery { R with
      inbox := R.inbox.retire row.id
      deliver := .fetch
      log := R.log ++ [.retired row.id] } (r + 1) := by
  have hrow : R.deliver.row? = some row := by rw [hpc]; rfl
  have hid := (h.spooled.first (h.holding row hrow)).2
  have hcurrent := h.current row (Or.inr hpc)
  refine ⟨h.spooled.retire (h.holding row hrow), ?_, ?_, h.offers.other fun _ _ => nofun,
    fun _ hnone => (nomatch hnone), fun _ hnone => (nomatch hnone), ?_,
    fun _ hnone => hnone.elim nofun nofun, fun c hc => h.quiet hc (by rw [hpc]; exact nofun)⟩
  · intro id
    simp only [List.mem_append, List.mem_singleton, LocalEvent.retired.injEq, h.retired]
    omega
  · intro id hret
    refine List.mem_append_left _ ?_
    rcases List.mem_append.mp hret with hret | hret
    · exact h.acked id hret
    · injection List.mem_singleton.mp hret with heq
      rw [heq]
      exact h.got row hpc
  · have hlatest := latest_other R.log (e := .retired row.id) fun _ _ => nofun
    dsimp only
    rw [hlatest]
    omega

/-- The local connection breaks. -/
theorem cut (h : Delivery R r) (i j : ℕ) :
    Delivery { R with peer := R.peer.map fun c => ⟨c.out.take i, c.reply.take j, false⟩ } r := by
  refine h.same rfl rfl rfl h.holding h.got h.current fun c' hc' => ?_
  obtain ⟨c, hpeer, rfl⟩ := Option.map_eq_some_iff.mp hc'
  have hunder := h.asked c hpeer
  dsimp only
  cases hpc : R.deliver with
  | offered row =>
    rw [hpc] at hunder
    rcases hunder with ⟨hreply, hpre⟩ | ⟨hout, byte, hpre, hack⟩
    · exact Or.inl ⟨by rw [hreply, List.take_nil], (List.take_prefix _ _).trans hpre⟩
    · exact Or.inr ⟨by rw [hout, List.take_nil], byte, (List.take_prefix _ _).trans hpre, hack⟩
  | _ =>
    rw [hpc] at hunder
    dsimp only at hunder ⊢
    rw [hunder.1, hunder.2, List.take_nil, List.take_nil]
    exact ⟨rfl, rfl⟩

/-- **`deliver` and the local receiver.** -/
theorem step (h : Delivery R r) (hstep : DeliverStep R R') : ∃ r', Delivery R' r' := by
  cases hstep with
  | fetched hpc hfirst =>
    refine ⟨r, h.same rfl rfl rfl (fun row' hrow => ?_) (fun _ hrow => (nomatch hrow))
      (fun _ hrow => hrow.elim nofun nofun) fun c hc => h.quiet hc (by rw [hpc]; exact nofun)⟩
    rw [← Option.some.inj hrow]
    exact hfirst
  | connected hpc =>
    refine ⟨r, h.same rfl rfl rfl h.holding h.got h.current fun c hc => ?_⟩
    dsimp only
    rw [hpc, ← Option.some.inj hc]
    exact ⟨rfl, rfl⟩
  | offered hpc hpeer => exact ⟨r, h.offered hpc hpeer⟩
  | answered byte hpc hpeer hitem => exact ⟨r, h.answered byte hpc hpeer hitem⟩
  | read hpc hpeer hreply => exact ⟨r, h.read hpc hpeer hreply⟩
  | retired hpc => exact ⟨r + 1, h.retire hpc⟩
  | failed =>
    exact ⟨r, h.same rfl rfl rfl (fun _ hnone => (nomatch hnone)) (fun _ hnone => (nomatch hnone))
      (fun _ hnone => hnone.elim nofun nofun) (fun _ hc => (nomatch hc))⟩
  | cut i j => exact ⟨r, h.cut i j⟩

end Delivery

end Durable
end PulseFanout
