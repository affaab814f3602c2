import PulseFanout.Durable.Delivery

/-!
# No loss, no duplication, no gap

Whatever the schedule, the cuts and the crashes, the inbox has taken in exactly the first
payloads of the outbox, up to the mark of the session; a row leaves the outbox only below
that mark; and a row leaves the inbox only after the local receiver has answered it with the
byte one (`exactly_once`).

The argument has a part for each relay and one for the link between them.

* `SendInv` — the outbox has given up only rows below the mark of the session, `transmit`
  works on its first row, and an acknowledged row is below the mark.
* `Carries` — every byte towards the receiver belongs to a frame of an enqueued row, every
  byte back to an acknowledgement below the mark. Cuts do not matter here (`Flow`).
* `RecvInv` — the rows accepted for the session are the first of the outbox, as many as the
  mark says; and `Delivery`, the local side.
-/

namespace PulseFanout
namespace Durable

open Framework

/-! ### The link -/

/-- The frame of a row that was enqueued. -/
def Genuine (enqueued : List (Row Session))
    (item : (BitVec 32 × Session × BitVec 64 × BitVec 16) × List Byte) : Prop :=
  ∃ row ∈ enqueued, item = frameOf row

/-- What a connection carries: frames of enqueued rows one way, acknowledgements up to the
mark the other way. -/
def Carries (enqueued : List (Row Session)) (high : ℕ) (c : Conn) : Prop :=
  Flow frames (Genuine enqueued) c.link c.up ∧ Flow acks (fun n => n.toNat ≤ high) c.link c.down

namespace Carries

variable {enqueued enqueued' : List (Row Session)} {high high' : ℕ} {c : Conn}

theorem fresh : Carries enqueued high {} := ⟨Flow.nil, Flow.nil⟩

theorem mono (h : Carries enqueued high c) (hsub : ∀ row ∈ enqueued, row ∈ enqueued')
    (hle : high ≤ high') : Carries enqueued' high' c := by
  refine ⟨h.1.mono fun item hitem => ?_, h.2.mono fun n hn => hn.trans hle⟩
  obtain ⟨row, hrow, heq⟩ := hitem
  exact ⟨row, hsub row hrow, heq⟩

theorem send (h : Carries enqueued high c) {row : Row Session} (hrow : row ∈ enqueued)
    (hsize : 1 ≤ row.payload.length ∧ row.payload.length ≤ maxFrame) :
    Carries enqueued high (c.send (frames.put (frameOf row))) := by
  unfold Conn.send
  split
  · next hlink =>
    obtain ⟨hup, hdown⟩ := h
    rw [hlink] at hup
    refine ⟨?_, hdown⟩
    dsimp only
    rw [hlink]
    exact hup.push (frameOf_valid hsize) ⟨row, hrow, rfl⟩
  · exact h

theorem reply (h : Carries enqueued high c) {number : BitVec 64} (hle : number.toNat ≤ high) :
    Carries enqueued high (c.reply (acks.put number)) := by
  unfold Conn.reply
  split
  · next hlink =>
    obtain ⟨hup, hdown⟩ := h
    rw [hlink] at hdown
    refine ⟨hup, ?_⟩
    dsimp only
    rw [hlink]
    exact hdown.push trivial hle
  · exact h

theorem cut (h : Carries enqueued high c) (i j : ℕ) : Carries enqueued high (c.cut i j) :=
  ⟨h.1.cut i, h.2.cut j⟩

theorem close (h : Carries enqueued high c) : Carries enqueued high c.close := by
  have hup := h.1.cut c.up.length
  have hdown := h.2.cut c.down.length
  rw [List.take_length] at hup hdown
  exact ⟨hup, hdown⟩

theorem hangUp (h : Carries enqueued high c) : Carries enqueued high c.hangUp :=
  ⟨Flow.nil, h.close.2⟩

end Carries

/-! ### The sending relay -/

/-- What holds of the sending relay, `high` being the mark of its session. -/
structure SendInv (high : ℕ) (R : SendRelay) : Prop where
  /-- Rows have left the outbox only below the mark. -/
  spooled : ∃ r ≤ high, Spooled R.outbox R.enqueued r
  /-- All rows are of the outbox's session. -/
  session : ∀ row ∈ R.enqueued, row.session = R.outbox.session
  /-- `transmit` works on the first row. -/
  holding : ∀ row, R.transmit.row? = some row → R.outbox.pending.head? = some row
  /-- What it is about to retire is below the mark. -/
  acked : ∀ row, R.transmit = .acked row → row.id ≤ high

namespace SendInv

variable {high : ℕ} {R R' : SendRelay} {conns conns' : List Conn}

theorem mono {high' : ℕ} (h : SendInv high R) (hle : high ≤ high') : SendInv high' R := by
  obtain ⟨r, hr, hspooled⟩ := h.spooled
  exact ⟨⟨r, hr.trans hle, hspooled⟩, h.session, h.holding,
    fun row hrow => (h.acked row hrow).trans hle⟩

/-- A step that leaves the outbox alone and lets `transmit` work on the first row. -/
theorem same (h : SendInv high R) (houtbox : R'.outbox = R.outbox)
    (henq : R'.enqueued = R.enqueued)
    (hholding : ∀ row, R'.transmit.row? = some row → R.outbox.pending.head? = some row)
    (hacked : ∀ row, R'.transmit = .acked row → row.id ≤ high) : SendInv high R' := by
  refine ⟨?_, ?_, ?_, hacked⟩
  · rw [houtbox, henq]; exact h.spooled
  · rw [houtbox, henq]; exact h.session
  · rw [houtbox]; exact hholding

/-- The row `transmit` works on was enqueued. -/
theorem row_mem (h : SendInv high R) {row : Row Session} (hrow : R.transmit.row? = some row) :
    row ∈ R.enqueued ∧ 1 ≤ row.payload.length ∧ row.payload.length ≤ maxFrame := by
  obtain ⟨r, -, hspooled⟩ := h.spooled
  obtain ⟨hget, -⟩ := hspooled.first (h.holding row hrow)
  have hmem := List.mem_of_getElem? hget
  exact ⟨hmem, hspooled.sized row hmem⟩

theorem restart (h : SendInv high R) : SendInv high R.restart :=
  h.same rfl rfl (fun _ hrow => (nomatch hrow)) (fun _ hrow => (nomatch hrow))

/-- **The main thread.** -/
theorem stepMain (h : SendInv high R) {a : MainAction} (hstep : R.stepMain a = some R') :
    SendInv high R' ∧ R'.outbox.session = R.outbox.session ∧ R.enqueued <+: R'.enqueued := by
  cases SendRelay.stepMain_cases hstep with
  | enqueued hmain hsize hroom =>
    obtain ⟨r, hr, hspooled⟩ := h.spooled
    refine ⟨⟨⟨r, hr, hspooled.append hroom rfl hsize rfl rfl⟩, ?_, ?_, h.acked⟩, rfl,
      List.prefix_append _ _⟩
    · intro row hrow
      rcases List.mem_append.mp hrow with hrow | hrow
      · exact h.session row hrow
      · rw [List.mem_singleton.mp hrow]
        rfl
    · -- the new row comes last, so the first one stays the first
      intro row hrow
      exact head?_append_of_some (h.holding row hrow) _
  | refused => exact ⟨h, rfl, List.prefix_rfl⟩
  -- the others leave the outbox and `transmit` alone
  | ended | raised | returned =>
    exact ⟨h.same rfl rfl h.holding h.acked, rfl, List.prefix_rfl⟩

theorem closed (hconns : ∀ c ∈ conns, Carries R.enqueued high c) :
    ∀ c ∈ R.closed conns, Carries R.enqueued high c := by
  unfold SendRelay.closed
  split
  · exact hconns
  · exact forall_modify hconns _ fun c hc => hc.close

/-- **`transmit`.** -/
theorem stepTransmit (h : SendInv high R) (hconns : ∀ c ∈ conns, Carries R.enqueued high c)
    {a : TransmitAction} (hstep : R.stepTransmit conns a = some (R', conns')) :
    SendInv high R' ∧ (∀ c ∈ conns', Carries R'.enqueued high c) ∧
      R'.outbox.session = R.outbox.session ∧ R'.enqueued = R.enqueued := by
  have hclosed := closed hconns
  -- a step after which `transmit` has no row in hand
  have hfree : ∀ {R' : SendRelay} {conns' : List Conn}, R'.outbox = R.outbox →
      R'.enqueued = R.enqueued → R'.transmit.row? = none →
      (∀ c ∈ conns', Carries R.enqueued high c) →
      SendInv high R' ∧ (∀ c ∈ conns', Carries R'.enqueued high c) ∧
        R'.outbox.session = R.outbox.session ∧ R'.enqueued = R.enqueued := by
    intro R' conns' houtbox henq hnone hconns'
    refine ⟨h.same houtbox henq (fun row hrow => ?_) (fun row hrow => ?_), henq ▸ hconns',
      by rw [houtbox], henq⟩
    · rw [hnone] at hrow
      cases hrow
    · rw [hrow] at hnone
      cases hnone
  cases SendRelay.stepTransmit_cases hstep with
  | stopped | again | empty | done | waited => exact hfree rfl rfl rfl hconns
  | retried | died | finished => exact hfree rfl rfl rfl hclosed
  | fetched hpc hfirst =>
    refine ⟨h.same rfl rfl (fun row' hrow => ?_) (fun row' hrow => (nomatch hrow)), hconns,
      rfl, rfl⟩
    rw [← Option.some.inj hrow]
    exact hfirst
  | connected hpc =>
    refine ⟨h.same rfl rfl h.holding h.acked, fun c hc => ?_, rfl, rfl⟩
    rcases List.mem_append.mp hc with hc | hc
    · exact hconns c hc
    · rw [List.mem_singleton.mp hc]
      exact Carries.fresh
  | @sent row i hpc =>
    have hrow : R.transmit.row? = some row := by rw [hpc]; rfl
    obtain ⟨hmem, hsize⟩ := h.row_mem hrow
    refine ⟨h.same rfl rfl (fun row' hrow' => ?_) (fun row' hrow' => (nomatch hrow')),
      forall_modify hconns i fun c hc => hc.send hmem hsize, rfl, rfl⟩
    rw [← Option.some.inj hrow']
    exact h.holding row hrow
  | @acked row i c number rest hpc hconn hack hid =>
    have hrow : R.transmit.row? = some row := by rw [hpc]; rfl
    have hc := hconns c (List.mem_of_getElem? hconn)
    -- the number was written below the mark
    obtain ⟨-, hle, hrest⟩ := hc.2.get_item hack
    refine ⟨h.same rfl rfl (fun row' hrow' => ?_) (fun row' hrow' => ?_),
      forall_set hconns i ⟨hc.1, hrest⟩, rfl, rfl⟩
    · rw [← Option.some.inj hrow']
      exact h.holding row hrow
    · injection hrow' with heq
      rw [← heq, ← hid]
      exact hle
  | @retired row hpc =>
    have hrow : R.transmit.row? = some row := by rw [hpc]; rfl
    obtain ⟨r, -, hspooled⟩ := h.spooled
    -- one more row is gone, and it was below the mark
    have hid := (hspooled.first (h.holding row hrow)).2
    have hle := h.acked row hpc
    exact ⟨⟨⟨r + 1, by omega, hspooled.retire (h.holding row hrow)⟩, h.session,
      fun _ hnone => (nomatch hnone), fun _ hnone => (nomatch hnone)⟩, hconns, rfl, rfl⟩

end SendInv

/-! ### The receiving relay -/

/-- What `accept` can have done. -/
theorem RecvRelay.take_cases {R R' : RecvRelay} {session : Session} {sequence : ℕ}
    {payload : List Byte} (h : R.take session sequence payload = .ok R') :
    (sequence ≤ R.inbox.high session ∧ R' = R) ∨
      ((1 ≤ payload.length ∧ payload.length ≤ maxFrame) ∧ sequence = R.inbox.high session + 1 ∧
        R.inbox.lastId + 1 < 2 ^ 63 ∧
        ∃ inbox, R' = { R with
            inbox
            accepted := R.accepted ++ [⟨R.inbox.lastId + 1, session, sequence, payload⟩] } ∧
          inbox.pending = R.inbox.pending ++ [⟨R.inbox.lastId + 1, session, sequence, payload⟩] ∧
          inbox.lastId = R.inbox.lastId + 1 ∧ inbox.high session = sequence ∧
          ∀ session', session' ≠ session → inbox.high session' = R.inbox.high session') := by
  unfold RecvRelay.take at h
  rcases R.inbox.accept_outcome .ample session sequence payload with
    ⟨e, heq⟩ | ⟨hle, heq⟩ | ⟨hsize, hnext, hlast, -, hkeys, heq⟩
  · rw [heq] at h
    cases h
  · rw [heq] at h
    cases h
    exact Or.inl ⟨hle, rfl⟩
  · rw [heq] at h
    cases h
    exact Or.inr ⟨hsize, hnext, hlast, _, rfl, rfl, rfl, Store.high_of_set hkeys rfl⟩

/-- What holds of the receiving relay, for the session of the sending one and the rows that
one has enqueued. -/
structure RecvInv (session : Session) (enqueued : List (Row Session)) (R : RecvRelay) : Prop where
  /-- What was accepted are the first payloads enqueued, up to the mark. -/
  mine : (R.accepted.filter fun row => row.session = session).map Row.payload =
    (enqueued.map Row.payload).take (R.inbox.high session)
  le : R.inbox.high session ≤ enqueued.length
  delivery : ∃ r, Delivery R r

namespace RecvInv

variable {session : Session} {enqueued enqueued' : List (Row Session)} {R R' : RecvRelay}

theorem mono (h : RecvInv session enqueued R) (hpre : enqueued <+: enqueued') :
    RecvInv session enqueued' R := by
  obtain ⟨more, rfl⟩ := hpre
  refine ⟨?_, h.le.trans (by rw [List.length_append]; omega), h.delivery⟩
  rw [h.mine, List.map_append, List.take_append_of_le_length (by rw [List.length_map]; exact h.le)]

/-- Which acknowledgement is due does not matter here. -/
theorem due (h : RecvInv session enqueued R) (net : Option (ℕ × BitVec 64)) :
    RecvInv session enqueued { R with net } := by
  obtain ⟨r, hdelivery⟩ := h.delivery
  exact ⟨h.mine, h.le, r,
    hdelivery.same rfl rfl rfl hdelivery.holding hdelivery.got hdelivery.current hdelivery.asked⟩

/-- A frame of the session: that of an enqueued row. -/
theorem take_own (h : RecvInv session enqueued R) {row : Row Session}
    (hplace : enqueued[row.id - 1]? = some row) (hpos : 1 ≤ row.id)
    (htake : R.take session row.id row.payload = .ok R') :
    RecvInv session enqueued R' ∧ row.id ≤ R'.inbox.high session ∧
      R.inbox.high session ≤ R'.inbox.high session := by
  obtain ⟨r, hdelivery⟩ := h.delivery
  rcases RecvRelay.take_cases htake with ⟨hle, rfl⟩ |
    ⟨hsize, hnext, hroom, inbox, rfl, hpending, hlast, hhigh, -⟩
  · exact ⟨h, hle, le_rfl⟩
  · obtain ⟨hlt, hget⟩ := List.getElem?_eq_some_iff.mp hplace
    refine ⟨⟨?_, ?_, r, hdelivery.append hroom rfl hsize hpending hlast⟩, hhigh.ge, ?_⟩
    · -- the row is the one at the mark
      have hmark : R.inbox.high session < enqueued.length := by omega
      have hrow : enqueued[R.inbox.high session] = row := by
        rw [← hget]
        congr 1
        omega
      change (List.filter _ (R.accepted ++ [_])).map Row.payload =
        (enqueued.map Row.payload).take (inbox.high session)
      rw [hhigh, hnext, List.take_add_one, ← h.mine, List.filter_append, List.map_append,
        List.getElem?_map, List.getElem?_eq_getElem hmark, hrow,
        List.filter_cons_of_pos (by simp)]
      rfl
    · change inbox.high session ≤ enqueued.length
      rw [hhigh]
      omega
    · change R.inbox.high session ≤ inbox.high session
      rw [hhigh, hnext]
      exact Nat.le_succ _

/-- A frame of another session. -/
theorem take_foreign (h : RecvInv session enqueued R) {session' : Session} {sequence : ℕ}
    {payload : List Byte} (hne : session' ≠ session)
    (htake : R.take session' sequence payload = .ok R') :
    RecvInv session enqueued R' ∧ R'.inbox.high session = R.inbox.high session ∧
      R'.net = R.net := by
  obtain ⟨r, hdelivery⟩ := h.delivery
  rcases RecvRelay.take_cases htake with ⟨-, rfl⟩ |
    ⟨hsize, hnext, hroom, inbox, rfl, hpending, hlast, -, hother⟩
  · exact ⟨h, rfl, rfl⟩
  · have hmark := hother session hne.symm
    refine ⟨⟨?_, ?_, r, hdelivery.append hroom rfl hsize hpending hlast⟩, hmark, rfl⟩
    · change (List.filter _ (R.accepted ++ [_])).map Row.payload =
        (enqueued.map Row.payload).take (inbox.high session)
      rw [hmark, ← h.mine, List.filter_append, List.filter_cons_of_neg (by simpa using hne),
        List.filter_nil, List.append_nil]
    · change inbox.high session ≤ enqueued.length
      rw [hmark]
      exact h.le

end RecvInv

/-! ### The system -/

/-- The mark of the sending relay's session. -/
def World.mark (W : World) : ℕ := W.recv.inbox.high W.send.outbox.session

/-- What holds of the system at every moment. -/
structure Inv (W : World) : Prop where
  send : SendInv W.mark W.send
  conns : ∀ c ∈ W.conns, Carries W.send.enqueued W.mark c
  /-- An acknowledgement that is due is below the mark. -/
  net : ∀ i number, W.recv.net = some (i, number) → number.toNat ≤ W.mark
  recv : RecvInv W.send.outbox.session W.send.enqueued W.recv

namespace Inv

variable {W W' : World}

/-- A frame read from a connection is that of an enqueued row. -/
theorem genuine (h : Inv W) {row : Row Session} (hrow : row ∈ W.send.enqueued) :
    row.session = W.send.outbox.session ∧ (BitVec.ofNat 64 row.id).toNat = row.id ∧
      1 ≤ row.id ∧ W.send.enqueued[row.id - 1]? = some row := by
  obtain ⟨r, -, hspooled⟩ := h.send.spooled
  obtain ⟨hpos, hle, hplace⟩ := hspooled.id_le hrow
  have hsmall := hspooled.small
  refine ⟨h.send.session row hrow, ?_, hpos, hplace⟩
  rw [BitVec.toNat_ofNat]
  exact Nat.mod_eq_of_lt (by omega)

theorem stepNet (h : Inv W) {a : NetAction} {recv : RecvRelay} {conns : List Conn}
    (hstep : W.recv.stepNet W.conns a = some (recv, conns)) : Inv { W with recv, conns } := by
  cases a with
  | receive i =>
    simp only [RecvRelay.stepNet] at hstep
    split at hstep
    · next c hnet hget =>
      have hc := h.conns c (List.mem_of_getElem? hget)
      split at hstep
      · cases hstep
      · cases hstep
        exact ⟨h.send, forall_set h.conns i hc.hangUp, h.net, h.recv⟩
      · next tag session sequence size payload rest hitem =>
        -- the frame is that of a row of the outbox
        obtain ⟨-, ⟨row, hrow, hframe⟩, hrest⟩ := hc.1.get_item hitem
        obtain ⟨hsession, hid, hpos, hplace⟩ := h.genuine hrow
        injection hframe with hheader hpayload
        injection hheader with _ hheader
        injection hheader with hs hheader
        injection hheader with hseq _
        subst hs hseq hpayload
        rw [hid] at hstep
        split at hstep
        · next R htake =>
          rw [hsession] at htake
          obtain ⟨hrecv, hacked, hgrow⟩ := h.recv.take_own hplace hpos htake
          cases hstep
          refine ⟨h.send.mono hgrow, ?_, ?_, hrecv.due _⟩
          · refine forall_set (fun c' hc' => ?_) i ?_
            · exact (h.conns c' hc').mono (fun _ hr => hr) hgrow
            · exact Carries.mono ⟨hrest, hc.2⟩ (fun _ hr => hr) hgrow
          · intro j number hdue
            injection hdue with hdue
            injection hdue with _ hnumber
            rw [← hnumber, hid]
            exact hacked
        · cases hstep
        · cases hstep
          exact ⟨h.send, forall_set h.conns i hc.hangUp, h.net, h.recv⟩
    · cases hstep
  | ack =>
    simp only [RecvRelay.stepNet] at hstep
    split at hstep
    · cases hstep
    · next i number hnet =>
      cases hstep
      have hle := h.net i number hnet
      exact ⟨h.send, forall_modify h.conns i fun c hc => hc.reply hle,
        fun _ _ hdue => (nomatch hdue), h.recv.due _⟩
  | drop i =>
    simp only [RecvRelay.stepNet] at hstep
    cases hstep
    refine ⟨h.send, forall_modify h.conns i fun c hc => hc.hangUp, ?_, h.recv.due _⟩
    intro j number hdue
    exact h.net j number (Option.filter_eq_some_iff.mp hdue).1

/-- The main thread and `transmit` leave the session and the mark alone. -/
theorem stepSend (h : Inv W) {send : SendRelay} {conns : List Conn} (hsend : SendInv W.mark send)
    (hsession : send.outbox.session = W.send.outbox.session)
    (hpre : W.send.enqueued <+: send.enqueued)
    (hconns : ∀ c ∈ conns, Carries send.enqueued W.mark c) : Inv { W with send, conns } := by
  have hmark : World.mark { W with send, conns } = W.mark := by
    unfold World.mark
    dsimp only
    rw [hsession]
  refine ⟨?_, ?_, ?_, ?_⟩
  · rw [hmark]; exact hsend
  · rw [hmark]; exact hconns
  · rw [hmark]; exact h.net
  · dsimp only
    rw [hsession]
    exact h.recv.mono hpre

/-- **One step of the system.** -/
theorem step (h : Inv W) {a : Action} (hstep : W.step a = some W') : Inv W' := by
  cases a with
  | main a =>
    obtain ⟨send, hmain, rfl⟩ := Option.map_eq_some_iff.mp hstep
    obtain ⟨hsend, hsession, hpre⟩ := h.send.stepMain hmain
    exact h.stepSend hsend hsession hpre fun c hc => (h.conns c hc).mono hpre.subset le_rfl
  | transmit a =>
    obtain ⟨⟨send, conns⟩, htransmit, rfl⟩ := Option.map_eq_some_iff.mp hstep
    obtain ⟨hsend, hconns, hsession, henq⟩ := h.send.stepTransmit h.conns htransmit
    exact h.stepSend hsend hsession (henq ▸ List.prefix_rfl) hconns
  | net a =>
    obtain ⟨⟨recv, conns⟩, hnet, rfl⟩ := Option.map_eq_some_iff.mp hstep
    exact h.stepNet hnet
  | deliver a =>
    obtain ⟨recv, hdeliver, rfl⟩ := Option.map_eq_some_iff.mp hstep
    obtain ⟨r, hdelivery⟩ := h.recv.delivery
    -- delivery touches the inbox rows only: marks and connections are as they were
    have hcases := RecvRelay.stepDeliver_cases hdeliver
    obtain ⟨hacc, hhigh, hnet⟩ := hcases.frame
    have hmark : World.mark { W with recv } = W.mark := hhigh _
    refine ⟨?_, ?_, ?_, ?_, ?_, hdelivery.step hcases⟩
    · rw [hmark]; exact h.send
    · rw [hmark]; exact h.conns
    · rw [hmark, hnet]; exact h.net
    · rw [hacc, hhigh]; exact h.recv.mine
    · rw [hhigh]; exact h.recv.le
  | cut i a b =>
    cases hstep
    exact ⟨h.send, forall_modify h.conns i fun c hc => hc.cut a b, h.net, h.recv⟩
  | crashSend =>
    cases hstep
    -- a crash keeps the outbox and closes the connections
    exact h.stepSend h.send.restart rfl List.prefix_rfl (SendInv.closed h.conns)
  | crashReceive =>
    cases hstep
    obtain ⟨r, hdelivery⟩ := h.recv.delivery
    refine ⟨h.send, fun c hc => ?_, fun _ _ hdue => (nomatch hdue), h.recv.mine, h.recv.le, r,
      hdelivery.restart⟩
    obtain ⟨c', hc', rfl⟩ := List.mem_map.mp hc
    exact (h.conns c' hc').hangUp
  | foreign session sequence payload =>
    simp only [World.step] at hstep
    split at hstep
    · cases hstep
    · next hne =>
      obtain ⟨recv, hok, rfl⟩ := Option.map_eq_some_iff.mp hstep
      -- another session has a mark of its own
      have htake : W.recv.take session sequence payload = .ok recv := by
        cases hres : W.recv.take session sequence payload with
        | error e => rw [hres] at hok; cases hok
        | ok R => rw [hres] at hok; cases hok; rfl
      obtain ⟨hrecv, hhigh, hnet⟩ := h.recv.take_foreign hne htake
      have hmark : World.mark { W with recv } = W.mark := hhigh
      refine ⟨?_, ?_, ?_, hrecv⟩
      · rw [hmark]; exact h.send
      · rw [hmark]; exact h.conns
      · rw [hmark, hnet]; exact h.net

theorem start (outbox inbox : ℕ × String × Session) : Inv (relays outbox inbox).start where
  send := ⟨⟨0, Nat.zero_le _, Spooled.create _ _ _⟩, fun _ hrow => absurd hrow List.not_mem_nil,
    fun _ hrow => (nomatch hrow), fun _ hrow => (nomatch hrow)⟩
  conns := fun _ hc => absurd hc List.not_mem_nil
  net := fun _ _ hdue => (nomatch hdue)
  recv := by
    refine ⟨rfl, le_rfl, 0, Spooled.create _ _ _, fun id => ?_,
      fun _ hret => absurd hret List.not_mem_nil, InOrder.nil, fun _ hrow => (nomatch hrow),
      fun _ hrow => (nomatch hrow), ⟨le_rfl, Nat.zero_le _⟩, fun _ hrow => hrow.elim nofun nofun,
      fun _ hc => (nomatch hc)⟩
    exact ⟨fun hret => absurd hret List.not_mem_nil, fun hle => by omega⟩

/-- **Every run.** -/
theorem reachable {outbox inbox : ℕ × String × Session} (h : (relays outbox inbox).Reachable W) :
    Inv W :=
  h.invariant (start outbox inbox) fun hinv hstep => hinv.step hstep

end Inv

/-! ### What the relays do to the receiving one -/

/-- A step of the system, as the receiving relay sees it. -/
inductive RecvMove (W : World) (R' : RecvRelay) : Action → Prop
  | deliver {b : DeliverAction} (h : W.recv.stepDeliver b = some R') : RecvMove W R' (.deliver b)
  | crash (h : R' = W.recv.restart) : RecvMove W R' .crashReceive
  /-- A row of the sending relay is taken, or one of another session. -/
  | took {a : Action} {session : Session} {sequence : ℕ} {payload : List Byte} {R : RecvRelay}
    {net : Option (ℕ × BitVec 64)} (h : W.recv.take session sequence payload = .ok R)
    (heq : R' = { R with net })
    (hwho : (∃ b, a = .net b) ∧ session = W.send.outbox.session ∧
        (∃ row ∈ W.send.enqueued, sequence = row.id ∧ payload = row.payload) ∨
      a = .foreign session sequence payload) : RecvMove W R' a
  | other {a : Action} {net : Option (ℕ × BitVec 64)} (h : R' = { W.recv with net })
    (ha : ∀ b, a ≠ .deliver b) (hcrash : a ≠ .crashReceive) : RecvMove W R' a

theorem RecvMove.unchanged {W : World} {a : Action} (ha : ∀ b, a ≠ .deliver b)
    (hcrash : a ≠ .crashReceive) : RecvMove W W.recv a := by
  have hsame : W.recv = { W.recv with net := W.recv.net } := rfl
  exact .other hsame ha hcrash

theorem Inv.recvMove {W W' : World} (h : Inv W) {a : Action} (hstep : W.step a = some W') :
    RecvMove W W'.recv a := by
  cases a with
  | main a | transmit a =>
    obtain ⟨_, -, rfl⟩ := Option.map_eq_some_iff.mp hstep
    exact RecvMove.unchanged (fun _ => Action.noConfusion) Action.noConfusion
  | cut | crashSend =>
    cases hstep
    exact RecvMove.unchanged (fun _ => Action.noConfusion) Action.noConfusion
  | crashReceive =>
    cases hstep
    exact .crash rfl
  | deliver b =>
    obtain ⟨recv, hdeliver, rfl⟩ := Option.map_eq_some_iff.mp hstep
    exact .deliver hdeliver
  | foreign session sequence payload =>
    simp only [World.step] at hstep
    split at hstep
    · cases hstep
    obtain ⟨recv, hok, rfl⟩ := Option.map_eq_some_iff.mp hstep
    cases htake : W.recv.take session sequence payload with
    | error e => rw [htake] at hok; cases hok
    | ok R =>
      rw [htake] at hok
      cases hok
      have hsame : recv = { recv with net := recv.net } := rfl
      exact .took htake hsame (Or.inr rfl)
  | net b =>
    obtain ⟨⟨recv, conns⟩, hnet, rfl⟩ := Option.map_eq_some_iff.mp hstep
    -- all but a frame that is accepted leaves the inbox alone
    have hother : ∀ net, RecvMove W { W.recv with net } (.net b) := fun net =>
      .other rfl (fun _ => Action.noConfusion) Action.noConfusion
    cases b with
    | receive i =>
      simp only [RecvRelay.stepNet] at hnet
      split at hnet
      · next c _ hget =>
        split at hnet
        · cases hnet
        · cases hnet
          exact hother _
        · next tag session sequence size payload rest hitem =>
          obtain ⟨-, ⟨row, hrow, hframe⟩, -⟩ :=
            (h.conns c (List.mem_of_getElem? hget)).1.get_item hitem
          -- a frame on a connection is that of a row of the sending relay
          injection hframe with hheader hpayload
          injection hheader with _ hheader
          injection hheader with hs hheader
          injection hheader with hsequence _
          obtain ⟨hsession, hid, -⟩ := h.genuine hrow
          split at hnet
          · next R htake =>
            cases hnet
            exact .took htake rfl (Or.inl ⟨⟨_, rfl⟩, hs.trans hsession, row, hrow,
              (congrArg BitVec.toNat hsequence).trans hid, hpayload⟩)
          · cases hnet
          · cases hnet
            exact hother _
      · cases hnet
    | ack =>
      simp only [RecvRelay.stepNet] at hnet
      split at hnet
      · cases hnet
      · cases hnet
        exact hother _
    | drop i =>
      cases hnet
      exact hother _

/-! ### The guarantee -/

/-- **No loss, no duplication, no gap.** In every state the system can reach, whatever was
interleaved, cut and restarted:

* the payloads accepted for the sender's session are the first ones enqueued, in order and each
  once, as many as the high mark says;
* what was enqueued is still in the outbox or below the mark;
* what was accepted is still in the inbox or was acknowledged by the local receiver, and rows
  are offered to that in the order of the inbox, again only while they are not retired. -/
theorem exactly_once {outbox inbox : ℕ × String × Session} {W : World}
    (h : (relays outbox inbox).Reachable W) :
    (W.mark ≤ W.send.enqueued.length ∧
      (W.recv.accepted.filter fun row => row.session = W.send.outbox.session).map Row.payload =
        (W.send.enqueued.take W.mark).map Row.payload) ∧
    (∀ i (hi : i < W.send.enqueued.length),
      W.send.enqueued[i] ∈ W.send.outbox.pending ∨ i + 1 ≤ W.mark) ∧
    (∀ row ∈ W.recv.accepted, row ∈ W.recv.inbox.pending ∨ .acked row.id ∈ W.recv.log) ∧
    InOrder W.recv.accepted W.recv.log := by
  have hinv := Inv.reachable h
  obtain ⟨r, hdelivery⟩ := hinv.recv.delivery
  refine ⟨⟨hinv.recv.le, ?_⟩, fun i hi => ?_, fun row hrow => ?_, hdelivery.offers⟩
  · rw [hinv.recv.mine, List.map_take]
    rfl
  · obtain ⟨s, hs, hspooled⟩ := hinv.send.spooled
    exact (hspooled.pending_or hi).imp_right fun hlt => Nat.succ_le_of_lt (hlt.trans_le hs)
  · -- a row that has left the inbox was retired, so the local receiver had answered it
    obtain ⟨hpos, hle, hplace⟩ := hdelivery.spooled.id_le hrow
    obtain ⟨hi, hget⟩ := List.getElem?_eq_some_iff.mp hplace
    rcases hdelivery.spooled.pending_or hi with hpending | hretired
    · exact Or.inl (hget ▸ hpending)
    · exact Or.inr (hdelivery.acked _ ((hdelivery.retired _).mpr ⟨hpos, by omega⟩))

/-- A run in which the connection breaks after the inbox has taken a row and before the
acknowledgement arrives, so that the row is sent twice. -/
def lostAck : List Action :=
  [.main (.enqueue [7]), .main (.enqueue [8]),
    .transmit .testStop, .transmit .fetch, .transmit .connect, .transmit .send,
    .net (.receive 0), .net .ack, .cut 0 0 3, .crashReceive,
    .transmit (.fail true), .transmit .testStop, .transmit .fetch, .transmit .connect,
    .transmit .send, .net (.receive 1), .net .ack, .transmit .readAck, .transmit .retire,
    .deliver .fetch, .deliver .connect, .deliver .offer, .deliver (.answer 1), .deliver .read,
    .deliver .retire]

/-- Two relays with room for a few rows. -/
def twoRelays : Machine World Action := relays (8192, "out", 1) (8192, "in", 2)

theorem resent_row_accepted_once :
    ∃ W, twoRelays.run twoRelays.start lostAck = some W ∧
      (W.mark, W.send.outbox.pending.map Row.payload, W.recv.log) =
        (1, [[8]], [.offered 1 [7], .acked 1, .retired 1]) ∧
      (W.recv.accepted.filter fun row => row.session = W.send.outbox.session).map Row.payload =
        (W.send.enqueued.take W.mark).map Row.payload ∧ InOrder W.recv.accepted W.recv.log := by
  have hfacts : (twoRelays.run twoRelays.start lostAck).map
        (fun W => (W.mark, W.send.outbox.pending.map Row.payload, W.recv.log)) =
      some (1, [[8]], [.offered 1 [7], .acked 1, .retired 1]) := by decide +kernel
  obtain ⟨W, hrun, heq⟩ := Option.map_eq_some_iff.mp hfacts
  have hreach : twoRelays.Reachable W := ⟨_, hrun⟩
  exact ⟨W, hrun, heq, (exactly_once hreach).1.2, (exactly_once hreach).2.2.2⟩

end Durable
end PulseFanout
