import PulseFanout.Durable.Smooth
import PulseFanout.Durable.Accounting

/-!
# After a restart everything gets through

Both relays are killed, wherever they are, and started again on the databases they left. While
nothing fails after that, and once the input of `send` has ended, every schedule of the threads
comes to an end, and the end is always the same: `send` has returned, everything ever enqueued has
been accepted by the other relay, and everything accepted has been acknowledged by the local
receiver (`restart_drains`).

That every step leads towards the end is in `Durable.Smooth`, unless a frame is refused. A frame is
refused when it comes before `deliver` has made room for it: the connection is then given up, and
`transmit` tries again until its time is up, so that the schedule would matter. It does not if the
inbox has room for the rows that are left, for their ids and for the session (`Roomy`): then no
frame is refused (`Draining.takes`). What is left is that there is a step as long as not all is done
(`Smoothly.live`).
-/

namespace PulseFanout
namespace Durable

open Framework

/-! ### Room in the inbox -/

/-- What `accept` asks of a frame and of the inbox. -/
theorem Store.accept_isOk {S : Store Session} {session : Session} {sequence : ℕ}
    {payload : List Byte} (hsequence : 1 ≤ sequence ∧ sequence < 2 ^ 63)
    (hsize : 1 ≤ payload.length ∧ payload.length ≤ maxFrame)
    (hnew : S.high session < sequence → sequence = S.high session + 1 ∧
      (session ∈ S.received.keys ∨ S.received.size < 64) ∧
      S.total + payload.length ≤ S.limit ∧ S.lastId + 1 < 2 ^ 63) :
    (S.accept .ample session sequence payload).1.isOk := by
  unfold accept
  rw [if_neg (not_not.mpr ⟨hsequence, hsize⟩)]
  -- a frame that is new, or one that the inbox has had
  rcases Nat.lt_or_ge (S.high session) sequence with hlt | hle
  · obtain ⟨hnext, hroom, hfits, hlast⟩ := hnew hlt
    have hfull : ¬ (session ∉ S.received.keys ∧ 64 ≤ S.received.size) := by
      rw [not_and_or, not_not, not_le]
      exact hroom
    simp only [transaction, if_neg (Nat.not_le.mpr hlt), if_neg (not_not.mpr hnext), dif_neg hfull,
      if_neg (not_lt.mpr hfits), insert, Disk.ample, true_and, if_pos hlast, if_true]
    rfl
  · simp only [transaction, if_pos hle]
    rfl

/-- What a step of the system does to the inbox. -/
inductive InboxStep (W : World) (a : Action) : Store Session → Prop
  | same : InboxStep W a W.recv.inbox
  | retired (id : ℕ) : InboxStep W a (W.recv.inbox.retire id)
  /-- The next row of the sending relay, or one of another. -/
  | accepted {session : Session} {sequence : ℕ} {payload : List Byte}
    (hwho : (session = W.send.outbox.session ∧ ∃ row, W.send.enqueued[W.mark]? = some row ∧
        payload = row.payload) ∨ a = .foreign session sequence payload)
    (hnext : sequence = W.recv.inbox.high session + 1)
    (hroom : session ∈ W.recv.inbox.received.keys ∨ W.recv.inbox.received.size < 64) :
    InboxStep W a { W.recv.inbox.append session sequence payload with
      received := W.recv.inbox.received.set session sequence hroom }

theorem Inv.inboxStep {W W' : World} (h : Inv W) {a : Action} (hstep : W.step a = some W') :
    InboxStep W a W'.recv.inbox := by
  have hmove := h.recvMove hstep
  generalize W'.recv = R' at hmove ⊢
  cases hmove with
  | deliver hdeliver =>
    cases RecvRelay.stepDeliver_cases hdeliver with
    | retired => exact .retired _
    | _ => exact .same
  | crash heq => exact heq ▸ .same
  | other heq => exact heq ▸ .same
  | @took _ session sequence payload R net htake heq hwho =>
    rw [heq]
    dsimp only
    unfold RecvRelay.take at htake
    rcases W.recv.inbox.accept_outcome .ample session sequence payload with
      ⟨e, hres⟩ | ⟨-, hres⟩ | ⟨-, hnext, -, -, hroom, hres⟩
    · rw [hres] at htake
      cases htake
    · rw [hres] at htake
      cases htake
      exact .same
    · rw [hres] at htake
      cases htake
      refine .accepted (hwho.imp_left ?_) hnext hroom
      rintro ⟨-, rfl, row, hrow, hid, hpayload⟩
      -- its number says where it stands
      obtain ⟨-, -, -, hplace⟩ := h.genuine hrow
      rw [← hid, hnext, Nat.add_sub_cancel] at hplace
      exact ⟨rfl, row, hplace, hpayload⟩

/-- The bytes that the inbox has still to take. -/
def World.due (W : World) : ℕ :=
  ((W.send.enqueued.drop W.mark).map fun row => row.payload.length).sum

/-- One row less. -/
theorem World.due_eq {W : World} {row : Row Session} (h : W.send.enqueued[W.mark]? = some row) :
    W.due = row.payload.length +
      ((W.send.enqueued.drop (W.mark + 1)).map fun row => row.payload.length).sum := by
  obtain ⟨hlt, rfl⟩ := List.getElem?_eq_some_iff.mp h
  rw [World.due, List.drop_eq_getElem_cons hlt, List.map_cons, List.sum_cons]

/-- The inbox takes the rows that are left in the outbox. -/
structure Roomy (W : World) : Prop where
  bytes : W.recv.inbox.total + W.due ≤ W.recv.inbox.limit
  session : W.send.outbox.session ∈ W.recv.inbox.received.keys ∨ W.recv.inbox.received.size < 64
  ids : W.recv.inbox.lastId + (W.send.enqueued.length - W.mark) < 2 ^ 63

/-- After the end of the input no row is added. -/
theorem DrainInv.input_ended {W W' : World} (h : DrainInv W.send) (hdone : W.send.ingressDone)
    {a : Action} (hsmooth : W.smooth a) (hstep : W.step a = some W') :
    W'.send.ingressDone ∧ W'.send.enqueued = W.send.enqueued := by
  have hclosed : W.send.main ≠ .ingress := fun hmain => by
    rw [h.ingress hmain] at hdone
    exact Bool.false_ne_true hdone
  cases a with
  | main a =>
    obtain ⟨send, hmain, rfl⟩ := Option.map_eq_some_iff.mp hstep
    cases SendRelay.stepMain_cases hmain with
    -- only the input adds rows
    | enqueued hingress => exact absurd hingress hclosed
    | ended => exact ⟨rfl, rfl⟩
    | refused | raised | returned => exact ⟨hdone, rfl⟩
  | transmit a =>
    obtain ⟨⟨send, conns⟩, htransmit, rfl⟩ := Option.map_eq_some_iff.mp hstep
    cases SendRelay.stepTransmit_cases htransmit with
    | _ => exact ⟨hdone, rfl⟩
  | net a | deliver a =>
    obtain ⟨_, -, rfl⟩ := Option.map_eq_some_iff.mp hstep
    exact ⟨hdone, rfl⟩
  | cut | crashSend | crashReceive | foreign => exact absurd hsmooth Bool.false_ne_true

theorem Roomy.step {W W' : World} (h : Roomy W) (hinv : Inv W) {a : Action}
    (hsmooth : W.smooth a) (hstep : W.step a = some W')
    (henqueued : W'.send.enqueued = W.send.enqueued) : Roomy W' := by
  have hle := (hinv.step hstep).recv.le
  have hsession := (World.step_enqueued hstep).1
  have hinbox := hinv.inboxStep hstep
  obtain ⟨hbytes, hkeys, hids⟩ := h
  obtain ⟨send, conns, recv⟩ := W'
  dsimp only at hsession henqueued hinbox hle
  -- nothing in the claim depends on more of the relays than this
  suffices hroom : recv.inbox.total + ((W.send.enqueued.drop
      (recv.inbox.high W.send.outbox.session)).map fun row => row.payload.length).sum ≤
        recv.inbox.limit ∧
      (W.send.outbox.session ∈ recv.inbox.received.keys ∨ recv.inbox.received.size < 64) ∧
      recv.inbox.lastId +
        (W.send.enqueued.length - recv.inbox.high W.send.outbox.session) < 2 ^ 63 by
    refine ⟨?_, ?_, ?_⟩
    · rw [World.due, World.mark, hsession, henqueued]
      exact hroom.1
    · rw [hsession]
      exact hroom.2.1
    · rw [World.mark, hsession, henqueued]
      exact hroom.2.2
  rw [hsession, henqueued] at hle
  generalize recv.inbox = inbox at hinbox hle ⊢
  cases hinbox with
  | same => exact ⟨hbytes, hkeys, hids⟩
  | retired id =>
    -- a row that goes makes room
    refine ⟨le_trans (Nat.add_le_add_right ?_ _) hbytes, hkeys, hids⟩
    change List.foldl _ _ _ ≤ _
    rw [Balanced.foldl_sub]
    exact Nat.sub_le _ _
  | @accepted session sequence payload hwho hnext hroom =>
    -- a row that is accepted is one of the sending relay
    have hown := hwho.resolve_right fun hforeign => by
      rw [hforeign] at hsmooth
      exact Bool.false_ne_true hsmooth
    obtain ⟨rfl, row, hplace, rfl⟩ := hown
    rw [(Store.high_of_set hroom rfl).1] at hle ⊢
    have hdue := World.due_eq hplace
    have hmark : sequence = W.mark + 1 := hnext
    refine ⟨?_, ?_, ?_⟩
    · change W.recv.inbox.total + row.payload.length + _ ≤ W.recv.inbox.limit
      rw [hmark, Nat.add_assoc, ← hdue]
      exact hbytes
    · exact Or.inl ((Registry.mem_keys_set _ hroom _).mpr (Or.inr rfl))
    · -- one id is used up, and one row less has to be accepted
      change W.recv.inbox.lastId + 1 + _ < _
      omega

/-- The inbox takes the row that `transmit` has sent. -/
theorem Roomy.accepts {W : World} (hroomy : Roomy W) (hinv : Inv W) {row : Row Session}
    (hpc : W.send.transmit = .sent row) :
    (W.recv.inbox.accept .ample row.session (BitVec.ofNat 64 row.id).toNat row.payload).1.isOk := by
  have hrow : W.send.transmit.row? = some row := by rw [hpc]; rfl
  obtain ⟨hmem, hsize⟩ := hinv.send.row_mem hrow
  obtain ⟨hsession, hid, hpos, hplace⟩ := hinv.genuine hmem
  obtain ⟨r, hr, hspooled⟩ := hinv.send.spooled
  have hfirst := (hspooled.first (hinv.send.holding row hrow)).2
  have hle := (hspooled.id_le hmem).2.1
  have hsmall := hspooled.small
  rw [hid, hsession]
  refine Store.accept_isOk ⟨hpos, by omega⟩ hsize fun hlt => ?_
  -- rows have left the outbox only below the mark, so this one is the next
  have hnext : row.id = W.mark + 1 := by
    have hmark : W.mark < row.id := hlt
    omega
  rw [hnext, Nat.add_sub_cancel] at hplace
  have hbytes := hroomy.bytes
  have hids := hroomy.ids
  rw [World.due_eq hplace] at hbytes
  exact ⟨hnext, hroomy.session, by omega, by omega⟩

/-! ### There is always a step -/

/-- All is done. -/
structure World.Settled (W : World) : Prop where
  returned : W.send.main = .returned
  outbox : W.send.outbox.pending = []
  inbox : W.recv.inbox.pending = []

namespace Smoothly

variable {W : World}

/-- `deliver` or the local receiver can go on while the inbox is not empty. -/
theorem deliver_live (h : Smoothly W) (hinv : Inv W) :
    W.recv.inbox.pending = [] ∨ ∃ a, W.smooth a ∧ (W.step a).isSome := by
  have hhanding := h.handing
  obtain ⟨r, hdelivery⟩ := hinv.recv.delivery
  generalize hpc : W.recv.deliver = pc, hpeer : W.recv.peer = peer at hhanding
  cases hhanding with
  | @offered row =>
    have hrow : W.recv.deliver.row? = some row := by rw [hpc]; rfl
    have hmem := List.mem_of_getElem? (hdelivery.spooled.first (hdelivery.holding row hrow)).1
    have hget := localFrames.get_put (localFrameOf_valid (hdelivery.spooled.sized row hmem)) []
    rw [List.append_nil] at hget
    exact Or.inr ⟨.deliver (.answer 1), rfl, by
      simp [World.step, RecvRelay.stepDeliver, hpc, hpeer, hget]⟩
  | answered =>
    exact Or.inr ⟨.deliver .read, rfl, by simp [World.step, RecvRelay.stepDeliver, hpc, hpeer]⟩
  | quiet hno =>
    cases pc with
    | fetch =>
      cases hpending : W.recv.inbox.pending with
      | nil => exact Or.inl rfl
      | cons row rest =>
        exact Or.inr ⟨.deliver .fetch, rfl, by
          simp [World.step, RecvRelay.stepDeliver, hpc, Store.first, hpending]⟩
    | «have» row =>
      cases peer with
      | none =>
        exact Or.inr ⟨.deliver .connect, rfl, by
          simp [World.step, RecvRelay.stepDeliver, hpc, hpeer]⟩
      | some c =>
        exact Or.inr ⟨.deliver .offer, rfl, by
          simp [World.step, RecvRelay.stepDeliver, hpc, hpeer]⟩
    | offered row => exact absurd rfl (hno row)
    | got row =>
      exact Or.inr ⟨.deliver .retire, rfl, by simp [World.step, RecvRelay.stepDeliver, hpc]⟩

/-- With nothing on the connection, `transmit` can go on, or the main thread. -/
theorem quiet_live (h : Smoothly W) (hdrain : DrainInv W.send) (hdone : W.send.ingressDone)
    (hempty : W.recv.inbox.pending = []) {pc : TransmitPc} (hpc : W.send.transmit = pc)
    (hno : ∀ row, pc ≠ .sent row) : W.Settled ∨ ∃ a, W.smooth a ∧ (W.step a).isSome := by
  cases pc with
  | loop =>
    exact Or.inr ⟨.transmit .testStop, rfl, by simp [World.step, SendRelay.stepTransmit, hpc]⟩
  | fetch =>
    refine Or.inr ⟨.transmit .fetch, rfl, ?_⟩
    simp only [World.step, SendRelay.stepTransmit, hpc, if_true]
    cases W.send.outbox.first with
    | none => rfl
    | some row => rfl
  | idle =>
    exact Or.inr ⟨.transmit .testDone, rfl, by simp [World.step, SendRelay.stepTransmit, hpc]⟩
  | «have» row =>
    cases hstream : W.send.stream with
    | none =>
      exact Or.inr ⟨.transmit .connect, rfl, by
        simp [World.step, SendRelay.stepTransmit, hpc, hstream]⟩
    | some i =>
      exact Or.inr ⟨.transmit .send, rfl, by
        simp [World.step, SendRelay.stepTransmit, hpc, hstream]⟩
  | sent row => exact absurd rfl (hno row)
  | acked row =>
    exact Or.inr ⟨.transmit .retire, rfl, by simp [World.step, SendRelay.stepTransmit, hpc]⟩
  | closing =>
    exact Or.inr ⟨.transmit (.close true), rfl, by
      simp [World.step, SendRelay.stepTransmit, hpc]⟩
  | finished =>
    have hleft : W.send.transmit.Left := by rw [hpc]; trivial
    cases hmain : W.send.main with
    | ingress =>
      rw [hdrain.ingress hmain] at hdone
      cases hdone
    | raised => exact absurd hmain h.main
    | draining =>
      exact Or.inr ⟨.main .join, rfl, by simp [World.step, SendRelay.stepMain, hpc, hmain]⟩
    | returned =>
      -- it has left its loop because the outbox was empty
      rcases hdrain.left hleft with hfail | hraised | ⟨-, hpending⟩
      · exact absurd h.failures hfail
      · exact absurd hraised h.main
      · exact Or.inl ⟨hmain, hpending h.raced, hempty⟩

/-- **While not all is done, some thread can go on.** -/
theorem live (h : Smoothly W) (hinv : Inv W) (hdrain : DrainInv W.send) (hroomy : Roomy W)
    (hdone : W.send.ingressDone) : W.Settled ∨ ∃ a, W.smooth a ∧ (W.step a).isSome := by
  rcases h.deliver_live hinv with hempty | hlive
  swap
  · exact Or.inr hlive
  have hexchange := h.exchange
  generalize hpc : W.send.transmit = pc, hstream : W.send.stream = stream,
    hnet : W.recv.net = net at hexchange
  cases hexchange with
  | @sent row i hconn =>
    -- the frame is there as a whole, and the inbox takes it
    have haccept := hroomy.accepts hinv hpc
    have hrow : W.send.transmit.row? = some row := by rw [hpc]; rfl
    have hget := frames.get_put (frameOf_valid (hinv.send.row_mem hrow).2) []
    rw [List.append_nil] at hget
    refine Or.inr ⟨.net (.receive i), rfl, ?_⟩
    simp only [World.step, RecvRelay.stepNet, hnet, hconn, hget]
    simp only [frameOf, RecvRelay.take]
    generalize W.recv.inbox.accept .ample row.session (BitVec.ofNat 64 row.id).toNat row.payload =
      result at haccept
    rcases result with ⟨err | ok, inbox⟩
    · exact absurd haccept Bool.false_ne_true
    · cases ok with
      | false => rfl
      | true => rfl
  | taken => exact Or.inr ⟨.net .ack, rfl, by simp [World.step, RecvRelay.stepNet, hnet]⟩
  | @answered row i hconn =>
    have hrow : W.send.transmit.row? = some row := by rw [hpc]; rfl
    -- so is the acknowledgement, and the number in it is that of the row
    have hget := acks.get_put (a := BitVec.ofNat 64 row.id) trivial []
    rw [List.append_nil] at hget
    have hid := (hinv.genuine (hinv.send.row_mem hrow).1).2.1
    exact Or.inr ⟨.transmit .readAck, rfl, by
      simp only [World.step, SendRelay.stepTransmit, hpc, hstream, hconn, hget, if_pos hid]
      rfl⟩
  | quiet hno => exact h.quiet_live hdrain hdone hempty hpc hno

end Smoothly

/-! ### Every schedule -/

/-- What holds along the runs. -/
structure Draining (W : World) : Prop where
  smoothly : Smoothly W
  inv : Inv W
  drain : DrainInv W.send
  roomy : Roomy W
  done : W.send.ingressDone

/-- **No frame is refused.** -/
theorem Draining.takes {W W' : World} (h : Draining W) {a : Action} (hstep : W.step a = some W') :
    W.takes a := by
  cases a with
  | net a =>
    cases a with
    | receive i =>
      obtain ⟨⟨recv, conns⟩, hnet, -⟩ := Option.map_eq_some_iff.mp hstep
      simp only [RecvRelay.stepNet] at hnet
      split at hnet
      · next c hidle hget =>
        -- there is something to read, so it is what `transmit` has sent
        have hup : c.up ≠ [] := by
          intro hnil
          rw [hnil, frames.get_nil] at hnet
          cases hnet
        obtain ⟨-, row, hpc, rfl⟩ := h.smoothly.incoming hidle hget hup
        have hrow : W.send.transmit.row? = some row := by rw [hpc]; rfl
        have hitem := frames.get_put (frameOf_valid (h.inv.send.row_mem hrow).2) []
        rw [List.append_nil] at hitem
        simp only [World.takes, hget, Option.map_some, hitem]
        exact h.roomy.accepts h.inv hpc
      · cases hnet
    | ack | drop => rfl
  | main | transmit | deliver | cut | crashSend | crashReceive | foreign => rfl

theorem Draining.step {W W' : World} (h : Draining W) {a : Action} (hsmooth : W.smooth a)
    (hstep : W.step a = some W') : Draining W' ∧ W'.left < W.left := by
  obtain ⟨hsmoothly, hless⟩ := h.smoothly.step h.inv h.drain hsmooth (h.takes hstep) hstep
  obtain ⟨hdone, henqueued⟩ := h.drain.input_ended h.done hsmooth hstep
  exact ⟨⟨hsmoothly, h.inv.step hstep, h.drain.step hstep,
    h.roomy.step h.inv hsmooth hstep henqueued, hdone⟩, hless h.done⟩

/-- All is done: `send` has returned, the payloads accepted for its session are those enqueued, and
whatever was accepted has been acknowledged by the local receiver. -/
structure World.Complete (W : World) : Prop extends W.Settled where
  delivered : (W.recv.accepted.filter fun row => row.session = W.send.outbox.session).map
    Row.payload = W.send.enqueued.map Row.payload
  acked : ∀ row ∈ W.recv.accepted, .acked row.id ∈ W.recv.log

theorem Inv.complete {W : World} (h : Inv W) (hsettled : W.Settled) : W.Complete := by
  obtain ⟨s, hs, hspooled⟩ := h.send.spooled
  obtain ⟨r, hdelivery⟩ := h.recv.delivery
  refine ⟨hsettled, ?_, fun row hrow => ?_⟩
  · -- the outbox is empty, so all of it is below the mark
    have hall := hsettled.outbox
    rw [hspooled.pending, List.drop_eq_nil_iff] at hall
    rw [h.recv.mine, List.take_of_length_le]
    rw [List.length_map]
    exact hall.trans hs
  · obtain ⟨hpos, hle, -⟩ := hdelivery.spooled.id_le hrow
    have hall := hsettled.inbox
    rw [hdelivery.spooled.pending, List.drop_eq_nil_iff] at hall
    exact hdelivery.acked _ ((hdelivery.retired _).mpr ⟨hpos, hle.trans hall⟩)

/-- **A restart drains.** Let both relays be killed in any state `W` that the system can reach, and
started again. Let nothing fail from then on, and the system come to a state `X` in which the input
of `send` has ended, with no frame refused on the way, and not ended while `transmit` still took the
outbox for empty that had got a row. If the inbox has room for the rows that it has still to take,
for their ids and for the session, then from `X` on, however the threads are scheduled, the run is
of bounded length, and it stops only when `send` has returned, all that was ever enqueued has been
accepted by the other relay, and all that was accepted has been acknowledged by the local
receiver. -/
theorem restart_drains {outbox inbox : ℕ × String × Session} {W X : World}
    (h : (relays outbox inbox).Reachable W)
    (hrun : ((smoothRelays outbox inbox).only fun W a => W.takes a = true).Leads W.restarted X)
    (hdone : X.send.ingressDone = true)
    (hbytes : X.recv.inbox.total + X.due ≤ X.recv.inbox.limit)
    (hsession : X.send.outbox.session ∈ X.recv.inbox.received.keys ∨
      X.recv.inbox.received.size < 64)
    (hids : X.recv.inbox.lastId + (X.send.enqueued.length - X.mark) < 2 ^ 63) :
    (smoothRelays outbox inbox).Halts World.Complete X := by
  -- the restart is two crashes, so all that was ever shown of the relays holds
  have hrestart : (relays outbox inbox).Reachable W.restarted :=
    h.leads ⟨[.crashSend, .crashReceive], rfl⟩
  have hkept : (relays outbox inbox).Reachable X ∧ Smoothly X := by
    refine hrun.invariant (P := fun X => (relays outbox inbox).Reachable X ∧ Smoothly X) ?_
      ⟨hrestart, Smoothly.restarted W⟩
    rintro X a X' ⟨hreach, hsmoothly⟩ hstep
    obtain ⟨htakes, hstep⟩ := Machine.only_step hstep
    obtain ⟨hsmooth, hstep⟩ := Machine.only_step hstep
    exact ⟨hreach.leads (.step hstep (.refl X')), (hsmoothly.step (Inv.reachable hreach)
      (DrainInv.reachable hreach) hsmooth htakes hstep).1⟩
  obtain ⟨hreach, hsmoothly⟩ := hkept
  have hstart : Draining X := ⟨hsmoothly, Inv.reachable hreach, DrainInv.reachable hreach,
    ⟨hbytes, hsession, hids⟩, hdone⟩
  refine Machine.Halts.of_measure (Q := Draining) World.left (fun hdraining hstep => ?_)
    (fun {Y} hdraining => ?_) hstart
  -- every step is nearer to the end, and until all is done there is one
  · obtain ⟨hsmooth, hstep⟩ := Machine.only_step hstep
    exact hdraining.step hsmooth hstep
  · rcases hdraining.smoothly.live hdraining.inv hdraining.drain hdraining.roomy hdraining.done with
      hsettled | ⟨a, hsmooth, hsome⟩
    · exact Or.inl (hdraining.inv.complete hsettled)
    · obtain ⟨Y', hstep⟩ := Option.isSome_iff_exists.mp hsome
      exact Or.inr ⟨a, Y', (if_pos hsmooth).trans hstep⟩

/-- The run with a lost acknowledgement, and then a restart with `--replay-only`: the row that is
left gets through. -/
theorem replay_drains_lost_ack :
    ∃ W X, twoRelays.run twoRelays.start lostAck = some W ∧
      ((smoothRelays (8192, "out", 1) (8192, "in", 2)).only fun W a => W.takes a = true).run
        W.restarted [.main .endInput] = some X ∧
      X.send.outbox.pending.map Row.payload = [[8]] ∧
      (smoothRelays (8192, "out", 1) (8192, "in", 2)).Halts World.Complete X := by
  have hfacts : ((twoRelays.run twoRelays.start lostAck).bind fun W =>
      ((smoothRelays (8192, "out", 1) (8192, "in", 2)).only fun W a => W.takes a = true).run
        W.restarted [.main .endInput]).map
        (fun X => (X.send.ingressDone, X.send.outbox.pending.map Row.payload,
          X.recv.inbox.total + X.due, X.recv.inbox.limit, X.recv.inbox.received.size,
          X.recv.inbox.lastId + (X.send.enqueued.length - X.mark))) =
      some (true, [[8]], 1, 8192, 1, 2) := by decide +kernel
  obtain ⟨X, hrun, heq⟩ := Option.map_eq_some_iff.mp hfacts
  obtain ⟨W, hW, hX⟩ := Option.bind_eq_some_iff.mp hrun
  simp only [Prod.mk.injEq] at heq
  obtain ⟨hdone, hpending, hbytes, hlimit, hsize, hids⟩ := heq
  have hreach : (relays (8192, "out", 1) (8192, "in", 2)).Reachable W := ⟨_, hW⟩
  exact ⟨W, X, hW, hX, hpending, restart_drains hreach ⟨_, hX⟩ hdone (by omega)
    (Or.inr (by omega)) (by omega)⟩

end Durable
end PulseFanout
