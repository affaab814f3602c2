import PulseFanout.Durable.Drain

/-!
# Runs in which nothing fails

Both relays have been started on their databases, and from then on no thread raises, no connection
breaks and the local receiver acknowledges (`World.smooth`). A frame may still be refused: if the
inbox is full, `accept` raises and the network thread gives the connection up. `World.takes` says of
a step that it is not that. `Smoothly` is what a run keeps that is both: one frame at a time is
between `transmit` and the network thread (`Exchange`), one between `deliver` and the local receiver
(`Handing`).

`World.left` counts the steps that are left once the input has ended. A row in the outbox costs more
than one in the inbox, for it has to pass through that as well. Every step brings it down
(`Smoothly.step`).
-/

namespace PulseFanout
namespace Durable

open Framework

namespace World

/-- A step that is no failure of a process, of a connection or of the local receiver. The input ends
when `transmit` is not between a look at the empty outbox and the test of the flag with a row
enqueued since the look. -/
def smooth (W : World) : Action → Bool
  | .main .fail | .main .joinTimeout => false
  | .main .endInput => !decide (W.send.transmit = .idle ∧ W.send.outbox.pending ≠ [])
  | .main _ => true
  | .transmit (.fail _) | .transmit (.close false) => false
  | .transmit _ => true
  | .net (.drop _) => false
  | .net _ => true
  | .deliver (.answer byte) => byte = 1
  | .deliver .fail | .deliver (.cut _ _) => false
  | .deliver _ => true
  | .cut _ _ _ | .crashSend | .crashReceive | .foreign _ _ _ => false

/-- The network thread does not refuse what it reads. -/
def takes (W : World) : Action → Bool
  | .net (.receive i) =>
    match W.conns[i]?.map fun c => frames.get c.up with
    | some (.item ((_, session, sequence, _), payload) _) =>
      (W.recv.inbox.accept .ample session sequence.toNat payload).1.isOk
    | _ => false
  | _ => true

/-- Both relays are killed and started again. -/
def restarted (W : World) : World :=
  { send := W.send.restart
    conns := (W.send.closed W.conns).map Conn.hangUp
    recv := W.recv.restart }

end World

/-- The system while nothing fails; the threads may be scheduled in any way. -/
def smoothRelays (outbox inbox : ℕ × String × Session) : Machine World Action :=
  (relays outbox inbox).only fun W a => W.smooth a = true

/-! ### What is under way -/

/-- What is between `transmit` and the network thread, by where `transmit` is. -/
inductive Exchange (conns : List Conn) : TransmitPc → Option ℕ → Option (ℕ × BitVec 64) → Prop
  | quiet {pc : TransmitPc} {stream : Option ℕ} (hpc : ∀ row, pc ≠ .sent row)
    (hstream : ∀ i, stream = some i → conns[i]? = some {}) : Exchange conns pc stream none
  | sent {row : Row Session} {i : ℕ} (hconn : conns[i]? = some { up := frames.put (frameOf row) }) :
    Exchange conns (.sent row) (some i) none
  | taken {row : Row Session} {i : ℕ} (hconn : conns[i]? = some {}) :
    Exchange conns (.sent row) (some i) (some (i, BitVec.ofNat 64 row.id))
  | answered {row : Row Session} {i : ℕ}
    (hconn : conns[i]? = some { down := acks.put (BitVec.ofNat 64 row.id) }) :
    Exchange conns (.sent row) (some i) none

/-- What is between `deliver` and the local receiver. -/
inductive Handing : DeliverPc → Option LocalConn → Prop
  | quiet {pc : DeliverPc} {peer : Option LocalConn} (hpc : ∀ row, pc ≠ .offered row)
    (hpeer : ∀ c, peer = some c → c = {}) : Handing pc peer
  | offered {row : Row Session} :
    Handing (.offered row) (some { out := localFrames.put (localFrameOf row) })
  | answered {row : Row Session} : Handing (.offered row) (some { reply := [1] })

/-- What a run without failures keeps. -/
structure Smoothly (W : World) : Prop where
  failures : W.send.failures = 0
  main : W.send.main ≠ .raised
  stop : W.send.stop = true → W.send.main = .returned
  raced : W.send.raced = false
  exchange : Exchange W.conns W.send.transmit W.send.stream W.recv.net
  /-- Nothing more comes from connections that were given up. -/
  old : ∀ j c, W.conns[j]? = some c → W.send.stream ≠ some j → c.up = []
  handing : Handing W.recv.deliver W.recv.peer

/-! ### The steps that are left -/

namespace World

/-- The steps `transmit` and the network thread have to take for the row at hand, with those of
`deliver` once it is accepted. -/
def transmitLeft (W : World) : ℕ :=
  match W.send.transmit with
  | .loop => 17
  | .fetch => 16
  | .have _ => if W.send.stream = none then 15 else 14
  -- the frame is on the connection (13), has been taken (4) or answered (3)
  | .sent _ =>
    if W.recv.net.isSome then 4
    else if (W.send.stream.bind fun i => W.conns[i]?).any fun c => c.down.isEmpty then 13 else 3
  | .acked _ | .idle => 2
  | .closing => 1
  | .finished => 0

/-- The steps `deliver` and the local receiver have to take for theirs. -/
def deliverLeft (W : World) : ℕ :=
  match W.recv.deliver with
  | .fetch => 6
  | .have _ => if W.recv.peer.isNone then 5 else 4
  | .offered _ => if W.recv.peer.any fun c => c.reply.isEmpty then 3 else 2
  | .got _ => 1

/-- A bound for the steps that are left. -/
def left (W : World) : ℕ :=
  20 * W.send.outbox.pending.length + 8 * W.recv.inbox.pending.length + W.transmitLeft +
    W.deliverLeft + if W.send.main = .draining then 1 else 0

end World

/-- With no row sent, nothing is on the connection. -/
theorem Exchange.still {conns : List Conn} {pc : TransmitPc} {stream : Option ℕ}
    {net : Option (ℕ × BitVec 64)} (h : Exchange conns pc stream net)
    (hpc : ∀ row, pc ≠ .sent row) :
    net = none ∧ ∀ i, stream = some i → conns[i]? = some {} := by
  cases h with
  | quiet _ hstream => exact ⟨rfl, hstream⟩
  | sent | taken | answered => exact absurd rfl (hpc _)

/-- With no row offered, nothing is on the local connection. -/
theorem Handing.still {pc : DeliverPc} {peer : Option LocalConn}
    (h : Handing pc peer) (hpc : ∀ row, pc ≠ .offered row) : ∀ c, peer = some c → c = {} := by
  cases h with
  | quiet _ hpeer => exact hpeer
  | offered | answered => exact absurd rfl (hpc _)

/-- A step of another thread than the main one, nearer to the end. -/
theorem World.left_lt {W W' : World} (hmain : W'.send.main = W.send.main)
    (hless : 20 * W'.send.outbox.pending.length + 8 * W'.recv.inbox.pending.length +
        W'.transmitLeft + W'.deliverLeft <
      20 * W.send.outbox.pending.length + 8 * W.recv.inbox.pending.length +
        W.transmitLeft + W.deliverLeft) : W'.left < W.left := by
  unfold World.left
  rw [hmain]
  exact Nat.add_lt_add_right hless _

/-- One of `transmit`. -/
theorem World.left_lt_transmit {W : World} {send : SendRelay} {conns : List Conn}
    (hmain : send.main = W.send.main)
    (hless : 20 * send.outbox.pending.length + World.transmitLeft { W with send, conns } <
      20 * W.send.outbox.pending.length + W.transmitLeft) :
    World.left { W with send, conns } < W.left := by
  have hdeliver : World.deliverLeft { W with send, conns } = W.deliverLeft := rfl
  refine World.left_lt hmain ?_
  rw [hdeliver]
  dsimp only
  omega

/-- One of `deliver` or the local receiver. -/
theorem World.left_lt_deliver {W : World} {recv : RecvRelay} (hnet : recv.net = W.recv.net)
    (hless : 8 * recv.inbox.pending.length + World.deliverLeft { W with recv } <
      8 * W.recv.inbox.pending.length + W.deliverLeft) :
    World.left { W with recv } < W.left := by
  have htransmit : World.transmitLeft { W with recv } = W.transmitLeft := by
    simp only [World.transmitLeft, hnet]
  refine World.left_lt rfl ?_
  rw [htransmit]
  dsimp only
  omega

namespace Smoothly

variable {W W' : World}

/-- The relays have just been started. -/
theorem restarted (W : World) : Smoothly W.restarted where
  failures := rfl
  main := MainPc.noConfusion
  stop := Bool.noConfusion
  raced := rfl
  exchange := .quiet (fun _ => TransmitPc.noConfusion) fun _ hi => by cases hi
  old := fun j c hc _ => by
    obtain ⟨c', -, rfl⟩ := List.getElem?_map .. ▸ hc |> Option.map_eq_some_iff.mp
    rfl
  handing := .quiet (fun _ => DeliverPc.noConfusion) fun _ hc => by cases hc

/-! ### The sending relay -/

/-- The main thread moves. -/
theorem stepMain (h : Smoothly W) (hdrain : DrainInv W.send) {a : MainAction} {send : SendRelay}
    (hsmooth : W.smooth (.main a)) (hstep : W.send.stepMain a = some send) :
    Smoothly { W with send } ∧ (W.send.ingressDone → World.left { W with send } < W.left) := by
  -- before the end of the input nothing is said about the steps that are left
  have hopen : W.send.main = .ingress → ¬ W.send.ingressDone = true := fun hmain => by
    rw [hdrain.ingress hmain]
    exact Bool.false_ne_true
  cases a with
  | fail | joinTimeout => exact absurd hsmooth Bool.false_ne_true
  | enqueue payload =>
    simp only [SendRelay.stepMain] at hstep
    split at hstep
    · next hmain =>
      refine ⟨?_, fun hdone => absurd hdone (hopen hmain)⟩
      split at hstep
      · cases hstep
        exact ⟨h.failures, h.main, h.stop, h.raced, h.exchange, h.old, h.handing⟩
      · cases hstep
        exact h
    · cases hstep
  | endInput =>
    simp only [SendRelay.stepMain] at hstep
    split at hstep
    · next hmain =>
      cases hstep
      refine ⟨⟨h.failures, MainPc.noConfusion, fun hstop => ?_, ?_, h.exchange, h.old, h.handing⟩,
        fun hdone => absurd hdone (hopen hmain)⟩
      · exact absurd ((h.stop hstop).symm.trans hmain) MainPc.noConfusion
      · exact Bool.not_eq_true' _ |>.mp hsmooth
    · cases hstep
  | join =>
    simp only [SendRelay.stepMain] at hstep
    split at hstep
    · next hends =>
      cases hstep
      refine ⟨⟨h.failures, ?_, fun _ => ?_, h.raced, h.exchange, h.old, h.handing⟩, fun _ => ?_⟩
      · dsimp only
        rw [if_pos h.failures]
        exact MainPc.noConfusion
      · exact if_pos h.failures
      · unfold World.left World.transmitLeft World.deliverLeft
        simp only [if_pos h.failures, if_pos hends.1, reduceCtorEq, if_false]
        omega
    · cases hstep

/-- `transmit` goes on, with no row sent before and after. -/
theorem moved (h : Smoothly W) {send : SendRelay} (hfailures : send.failures = W.send.failures)
    (hmain : send.main = W.send.main) (hstop : send.stop = W.send.stop)
    (hraced : send.raced = W.send.raced) (hstream : send.stream = W.send.stream)
    (hpc : ∀ row, W.send.transmit ≠ .sent row) (hpc' : ∀ row, send.transmit ≠ .sent row) :
    Smoothly { W with send } := by
  obtain ⟨hnet, hconn⟩ := h.exchange.still hpc
  refine ⟨hfailures.trans h.failures, hmain ▸ h.main, ?_, hraced.trans h.raced, ?_, ?_, h.handing⟩
  · rw [hstop, hmain]
    exact h.stop
  · dsimp only
    rw [hnet, hstream]
    exact .quiet hpc' hconn
  · rw [hstream]
    exact h.old

/-- `transmit` connects: the new connection is the last. -/
theorem connected (h : Smoothly W) {row : Row Session} (hpc : W.send.transmit = .have row)
    (hstream : W.send.stream = none) :
    Smoothly { W with
      send := { W.send with stream := some W.conns.length }
      conns := W.conns ++ [{}] } := by
  obtain ⟨hnet, -⟩ := h.exchange.still fun _ => hpc ▸ TransmitPc.noConfusion
  refine ⟨h.failures, h.main, h.stop, h.raced, ?_, fun j c hc hne => ?_, h.handing⟩
  · dsimp only
    rw [hnet]
    refine .quiet (fun _ => hpc ▸ TransmitPc.noConfusion) fun i hi => ?_
    rw [← Option.some.inj hi, List.getElem?_concat_length]
  · rcases Nat.lt_trichotomy j W.conns.length with hj | rfl | hj
    -- an old connection, the new one, which is that of `transmit`, or none
    · rw [List.getElem?_append_left hj] at hc
      exact h.old j c hc (hstream ▸ (Option.some_ne_none j).symm)
    · exact absurd rfl hne
    · rw [List.getElem?_eq_none (by rw [List.length_append, List.length_singleton]; omega)] at hc
      cases hc

/-- What the other side does to the connection of `transmit`, or `transmit` itself. -/
theorem exchanged (h : Smoothly W) {i : ℕ} (hstream : W.send.stream = some i) {c : Conn}
    (hi : W.conns[i]?.isSome) {send : SendRelay} {recv : RecvRelay} {conns : List Conn}
    (hfailures : send.failures = W.send.failures) (hmain : send.main = W.send.main)
    (hstop : send.stop = W.send.stop) (hraced : send.raced = W.send.raced)
    (hsame : send.stream = W.send.stream) (hconns : conns = W.conns.set i c)
    (hexchange : ∀ conns : List Conn, conns[i]? = some c →
      Exchange conns send.transmit (some i) recv.net)
    (hdeliver : recv.deliver = W.recv.deliver) (hpeer : recv.peer = W.recv.peer) :
    Smoothly { send, conns, recv } := by
  obtain ⟨_, hget⟩ := Option.isSome_iff_exists.mp hi
  have hlt := (List.getElem?_eq_some_iff.mp hget).1
  refine ⟨hfailures.trans h.failures, hmain ▸ h.main, ?_, hraced.trans h.raced, ?_,
    fun j c' hc hne => ?_, ?_⟩
  · dsimp only
    rw [hstop, hmain]
    exact h.stop
  · dsimp only
    rw [hsame, hstream]
    exact hexchange _ (hconns ▸ List.getElem?_set_self hlt)
  · dsimp only at hc hne
    rw [hsame] at hne
    -- the other connections are not touched
    have hij : i ≠ j := fun heq => hne (heq ▸ hstream)
    rw [hconns, List.getElem?_set_ne hij] at hc
    exact h.old j c' hc hne
  · dsimp only
    rw [hdeliver, hpeer]
    exact h.handing

/-- `transmit` sends the row. -/
theorem sent (h : Smoothly W) {row : Row Session} {i : ℕ} (hpc : W.send.transmit = .have row)
    (hstream : W.send.stream = some i) :
    let W' := { W with
      send := { W.send with transmit := .sent row }
      conns := W.conns.modify i fun c => c.send (frames.put (frameOf row)) }
    Smoothly W' ∧ World.left W' < W.left := by
  obtain ⟨hnet, hquiet⟩ := h.exchange.still fun _ => hpc ▸ TransmitPc.noConfusion
  have hget := hquiet i hstream
  have hconns : (W.conns.modify i fun c => c.send (frames.put (frameOf row))) =
      W.conns.set i { up := frames.put (frameOf row) } := by
    rw [List.modify_eq_set_getElem?, hget]
    rfl
  refine ⟨h.exchanged hstream (hget ▸ rfl) rfl rfl rfl rfl rfl hconns (fun conns hconn => ?_)
    rfl rfl, World.left_lt_transmit rfl ?_⟩
  · rw [hnet]
    exact .sent hconn
  · have hlt := (List.getElem?_eq_some_iff.mp hget).1
    simp [World.transmitLeft, hpc, hstream, hnet, hconns, List.getElem?_set_self hlt]

/-- `transmit` reads the acknowledgement: it is the one of its row. -/
theorem readAck (h : Smoothly W) {row : Row Session} {i : ℕ} {c : Conn} {number : BitVec 64}
    {rest : List Byte} (hpc : W.send.transmit = .sent row) (hstream : W.send.stream = some i)
    (hget : W.conns[i]? = some c) (hack : acks.get c.down = .item number rest) :
    let W' := { W with
      send := { W.send with transmit := .acked row }
      conns := W.conns.set i { c with down := rest } }
    Smoothly W' ∧ World.left W' < W.left := by
  have hexchange := h.exchange
  rw [hpc, hstream] at hexchange
  generalize hnet : W.recv.net = net at hexchange
  have hempty : acks.get [] = .short := acks.get_nil
  cases hexchange with
  | quiet hno => exact absurd rfl (hno row)
  | sent hconn | taken hconn =>
    -- nothing has come back yet
    obtain rfl := Option.some.inj (hconn.symm.trans hget)
    rw [hempty] at hack
    cases hack
  | answered hconn =>
    obtain rfl := Option.some.inj (hconn.symm.trans hget)
    have hput := acks.get_put (a := BitVec.ofNat 64 row.id) trivial []
    rw [List.append_nil, hack] at hput
    injection hput with _ hrest
    subst hrest
    refine ⟨h.exchanged hstream (hget ▸ rfl) rfl rfl rfl rfl rfl rfl (fun conns hconn' => ?_)
      rfl rfl, World.left_lt_transmit rfl ?_⟩
    · rw [hnet]
      refine .quiet (fun _ => TransmitPc.noConfusion) fun i' hi' => ?_
      rw [← Option.some.inj hi']
      exact hconn'
    · simp only [World.transmitLeft, hpc]
      split
      · omega
      · split
        · omega
        · omega

/-- `transmit` ends and closes its connection. -/
theorem closed (h : Smoothly W) (hpc : W.send.transmit = .closing) :
    let W' := { W with
      send := { W.send with stream := none, transmit := .finished }
      conns := W.send.closed W.conns }
    Smoothly W' ∧ World.left W' < W.left := by
  obtain ⟨hnet, hquiet⟩ := h.exchange.still fun _ => hpc ▸ TransmitPc.noConfusion
  refine ⟨⟨h.failures, h.main, h.stop, h.raced, ?_, fun j c hc _ => ?_, h.handing⟩,
    World.left_lt_transmit rfl ?_⟩
  · dsimp only
    rw [hnet]
    exact .quiet (fun _ => TransmitPc.noConfusion) fun _ hi => by cases hi
  · unfold SendRelay.closed at hc
    split at hc
    · next hstream => exact h.old j c hc (hstream ▸ (Option.some_ne_none j).symm)
    · next i hstream =>
      by_cases hij : i = j
      · subst hij
        rw [List.getElem?_modify_eq, hquiet i hstream] at hc
        cases hc
        rfl
      · rw [List.getElem?_modify_ne _ _ hij] at hc
        exact h.old j c hc fun heq => hij (Option.some.inj (hstream.symm.trans heq))
  · simp [World.transmitLeft, hpc]

/-- **`transmit` moves.** -/
theorem stepTransmit (h : Smoothly W) (hinv : Inv W) (hdrain : DrainInv W.send)
    {a : TransmitAction} {send : SendRelay} {conns : List Conn}
    (hsmooth : W.smooth (.transmit a))
    (hstep : W.send.stepTransmit W.conns a = some (send, conns)) :
    Smoothly { W with send, conns } ∧
      (W.send.ingressDone → World.left { W with send, conns } < W.left) := by
  cases a with
  | fail retry => exact absurd hsmooth Bool.false_ne_true
  | testStop =>
    simp only [SendRelay.stepTransmit] at hstep
    split at hstep
    · next hpc =>
      -- `stop` is set when `send` has returned, and then `transmit` is not here
      have hgo : W.send.stop = false := by
        refine Bool.eq_false_of_not_eq_true fun hset => ?_
        exact absurd (hpc.symm.trans (hdrain.returned (h.stop hset)).2) TransmitPc.noConfusion
      rw [if_neg (hgo ▸ Bool.false_ne_true)] at hstep
      cases hstep
      refine ⟨h.moved rfl rfl rfl rfl rfl (fun _ => hpc ▸ TransmitPc.noConfusion)
        (fun _ => TransmitPc.noConfusion), fun _ => World.left_lt_transmit rfl ?_⟩
      simp [World.transmitLeft, hpc]
    · cases hstep
  | fetch =>
    simp only [SendRelay.stepTransmit] at hstep
    split at hstep
    · next hpc =>
      split at hstep
      · cases hstep
        refine ⟨h.moved rfl rfl rfl rfl rfl (fun _ => hpc ▸ TransmitPc.noConfusion)
          (fun _ => TransmitPc.noConfusion), fun _ => World.left_lt_transmit rfl ?_⟩
        simp [World.transmitLeft, hpc]
      · cases hstep
        refine ⟨h.moved rfl rfl rfl rfl rfl (fun _ => hpc ▸ TransmitPc.noConfusion)
          (fun _ => TransmitPc.noConfusion), fun _ => World.left_lt_transmit rfl ?_⟩
        simp only [World.transmitLeft, hpc]
        split
        · omega
        · omega
    · cases hstep
  | testDone =>
    simp only [SendRelay.stepTransmit] at hstep
    split at hstep
    · next hpc =>
      cases hstep
      refine ⟨h.moved rfl rfl rfl rfl rfl (fun _ => hpc ▸ TransmitPc.noConfusion) fun _ => ?_,
        fun hdone => World.left_lt_transmit rfl ?_⟩
      · dsimp only
        split
        · exact TransmitPc.noConfusion
        · exact TransmitPc.noConfusion
      -- the input has ended, so `transmit` does not go round again
      · simp [World.transmitLeft, hpc, hdone]
    · cases hstep
  | connect =>
    simp only [SendRelay.stepTransmit] at hstep
    split at hstep
    · next hpc hstream =>
      cases hstep
      refine ⟨h.connected hpc hstream, fun _ => World.left_lt_transmit rfl ?_⟩
      simp [World.transmitLeft, hpc, hstream]
    · cases hstep
  | send =>
    simp only [SendRelay.stepTransmit] at hstep
    split at hstep
    · next hpc hstream =>
      cases hstep
      obtain ⟨hsent, hless⟩ := h.sent hpc hstream
      exact ⟨hsent, fun _ => hless⟩
    · cases hstep
  | readAck =>
    simp only [SendRelay.stepTransmit] at hstep
    split at hstep
    · next hpc hstream =>
      split at hstep
      · cases hstep
      next hget =>
      split at hstep
      · next hack =>
        split at hstep
        · cases hstep
          obtain ⟨hread, hless⟩ := h.readAck hpc hstream hget hack
          exact ⟨hread, fun _ => hless⟩
        · cases hstep
      · cases hstep
    · cases hstep
  | retire =>
    simp only [SendRelay.stepTransmit] at hstep
    split at hstep
    · next row hpc =>
      cases hstep
      refine ⟨h.moved rfl rfl rfl rfl rfl (fun _ => hpc ▸ TransmitPc.noConfusion)
        (fun _ => TransmitPc.noConfusion), fun _ => World.left_lt_transmit rfl ?_⟩
      have hrow : W.send.transmit.row? = some row := by rw [hpc]; rfl
      obtain ⟨r, -, hspooled⟩ := hinv.send.spooled
      -- the row counts for twenty, more than the steps of the next turn
      have hlength := hspooled.length_retire (hinv.send.holding row hrow)
      simp only [World.transmitLeft, hpc]
      omega
    · cases hstep
  | close ok =>
    cases ok with
    | false => exact absurd hsmooth Bool.false_ne_true
    | true =>
      simp only [SendRelay.stepTransmit] at hstep
      split at hstep
      · next hpc =>
        cases hstep
        obtain ⟨hclosed, hless⟩ := h.closed hpc
        exact ⟨hclosed, fun _ => hless⟩
      · cases hstep

/-! ### The receiving relay -/

/-- A row more or none. -/
theorem take_length {R R' : RecvRelay} {session : Session} {sequence : ℕ} {payload : List Byte}
    (htake : R.take session sequence payload = .ok R') :
    R'.inbox.pending.length ≤ R.inbox.pending.length + 1 ∧ R'.deliver = R.deliver ∧
      R'.peer = R.peer ∧ R'.net = R.net := by
  rcases RecvRelay.take_cases htake with ⟨-, rfl⟩ | ⟨-, -, -, inbox, rfl, hpending, -⟩
  · exact ⟨Nat.le_succ _, rfl, rfl, rfl⟩
  · refine ⟨?_, rfl, rfl, rfl⟩
    dsimp only
    rw [hpending, List.length_append]
    rfl

/-- Only what `transmit` has sent is there to be read. -/
theorem incoming (h : Smoothly W) {i : ℕ} {c : Conn} (hnet : W.recv.net = none)
    (hget : W.conns[i]? = some c) (hup : c.up ≠ []) :
    W.send.stream = some i ∧
      ∃ row, W.send.transmit = .sent row ∧ c = { up := frames.put (frameOf row) } := by
  have hstream : W.send.stream = some i := by
    by_contra hne
    exact hup (h.old i c hget hne)
  have hexchange := h.exchange
  rw [hstream, hnet] at hexchange
  generalize hpc : W.send.transmit = pc at hexchange
  cases hexchange with
  | quiet _ hquiet =>
    obtain rfl := Option.some.inj ((hquiet i rfl).symm.trans hget)
    exact absurd rfl hup
  | answered hconn =>
    obtain rfl := Option.some.inj (hconn.symm.trans hget)
    exact absurd rfl hup
  | @sent row _ hconn =>
    exact ⟨hstream, row, rfl, Option.some.inj (hget.symm.trans hconn)⟩

/-- The network thread takes the frame that `transmit` has sent. -/
theorem received (h : Smoothly W) {i : ℕ} {c : Conn} {tag : BitVec 32} {session : Session}
    {sequence : BitVec 64} {size : BitVec 16} {payload rest : List Byte} {R : RecvRelay}
    (hnet : W.recv.net = none) (hget : W.conns[i]? = some c)
    (hitem : frames.get c.up = .item ((tag, session, sequence, size), payload) rest)
    (hvalid : ∀ row, W.send.transmit = .sent row → frames.Valid (frameOf row))
    (htake : W.recv.take session sequence.toNat payload = .ok R) :
    let W' := { W with
      recv := { R with net := some (i, sequence) }
      conns := W.conns.set i { c with up := rest } }
    Smoothly W' ∧ World.left W' < W.left := by
  have hup : c.up ≠ [] := by
    intro hnil
    rw [hnil, frames.get_nil] at hitem
    cases hitem
  obtain ⟨hstream, row, hpc, rfl⟩ := h.incoming hnet hget hup
  -- the frame that was read is that of the row, and so is its number
  have hput := frames.get_put (hvalid row hpc) []
  rw [List.append_nil, hitem] at hput
  injection hput with hframe hrest
  injection hframe with hheader _
  injection hheader with _ hheader
  injection hheader with _ hheader
  injection hheader with hsequence _
  subst hrest hsequence
  obtain ⟨hlength, hdeliver, hpeer, -⟩ := take_length htake
  refine ⟨h.exchanged hstream (hget ▸ rfl) rfl rfl rfl rfl rfl rfl (fun conns hconn' => ?_)
    hdeliver hpeer, ?_⟩
  · rw [hpc]
    exact .taken hconn'
  -- a row in the inbox costs eight, and the exchange has come nine nearer to its end
  · have hbefore : W.transmitLeft = 13 := by
      simp [World.transmitLeft, hpc, hnet, hstream, hget]
    refine World.left_lt rfl ?_
    simp only [hbefore, World.deliverLeft, hdeliver, hpeer]
    simp only [World.transmitLeft, hpc, Option.isSome_some, if_true]
    omega

/-- The network thread acknowledges. -/
theorem acknowledged (h : Smoothly W) {i : ℕ} {number : BitVec 64}
    (hnet : W.recv.net = some (i, number)) :
    let W' := { W with
      recv := { W.recv with net := none }
      conns := W.conns.modify i fun c => c.reply (acks.put number) }
    Smoothly W' ∧ World.left W' < W.left := by
  have hexchange := h.exchange
  rw [hnet] at hexchange
  generalize hpc : W.send.transmit = pc, hstream : W.send.stream = stream at hexchange
  cases hexchange with
  | @taken row _ hget =>
    have hlt := (List.getElem?_eq_some_iff.mp hget).1
    have hconns : (W.conns.modify i fun c => c.reply (acks.put (BitVec.ofNat 64 row.id))) =
        W.conns.set i { down := acks.put (BitVec.ofNat 64 row.id) } := by
      rw [List.modify_eq_set_getElem?, hget]
      rfl
    refine ⟨h.exchanged hstream (hget ▸ rfl) rfl rfl rfl rfl rfl hconns (fun conns hconn => ?_)
      rfl rfl, ?_⟩
    · rw [hpc]
      exact .answered hconn
    · have hdown := acks.put_ne_nil (a := BitVec.ofNat 64 row.id) trivial
      refine World.left_lt rfl ?_
      simp [World.transmitLeft, World.deliverLeft, hpc, hnet, hconns, hstream,
        List.getElem?_set_self hlt, hdown]

/-- **The network thread moves.** -/
theorem stepNet (h : Smoothly W) (hinv : Inv W) {a : NetAction} {recv : RecvRelay}
    {conns : List Conn} (hsmooth : W.smooth (.net a)) (htakes : W.takes (.net a))
    (hstep : W.recv.stepNet W.conns a = some (recv, conns)) :
    Smoothly { W with recv, conns } ∧ World.left { W with recv, conns } < W.left := by
  cases a with
  | drop i => exact absurd hsmooth Bool.false_ne_true
  | receive i =>
    simp only [RecvRelay.stepNet] at hstep
    split at hstep
    · next c hnet hget =>
      simp only [World.takes, hget, Option.map_some] at htakes
      split at hstep
      · cases hstep
      -- bytes that are no frame are not taken either
      · next hbad =>
        rw [hbad] at htakes
        exact absurd htakes Bool.false_ne_true
      · next tag session sequence size payload rest hitem =>
        simp only [hitem] at htakes
        split at hstep
        · next R htake =>
          cases hstep
          refine h.received hnet hget hitem (fun row hpc => frameOf_valid ?_) htake
          exact (hinv.send.row_mem (by rw [hpc]; rfl)).2
        · cases hstep
        · next e _ htake =>
          -- `accept` does not raise
          unfold RecvRelay.take at htake
          generalize W.recv.inbox.accept .ample session sequence.toNat payload = result
            at htakes htake
          rcases result with ⟨err | ok, inbox⟩
          · exact absurd htakes Bool.false_ne_true
          · cases ok <;> cases htake
    · cases hstep
  | ack =>
    simp only [RecvRelay.stepNet] at hstep
    split at hstep
    · cases hstep
    · next hnet =>
      cases hstep
      exact h.acknowledged hnet

/-- `deliver` or the local receiver goes on. -/
theorem handed (h : Smoothly W) {recv : RecvRelay} (hnet : recv.net = W.recv.net)
    (hhanding : Handing recv.deliver recv.peer) : Smoothly { W with recv } :=
  ⟨h.failures, h.main, h.stop, h.raced, hnet ▸ h.exchange, h.old, hhanding⟩

/-- **`deliver` moves, or the local receiver.** -/
theorem stepDeliver (h : Smoothly W) (hinv : Inv W) {a : DeliverAction} {recv : RecvRelay}
    (hsmooth : W.smooth (.deliver a)) (hstep : W.recv.stepDeliver a = some recv) :
    Smoothly { W with recv } ∧ World.left { W with recv } < W.left := by
  have hhanding := h.handing
  cases a with
  | fail => exact absurd hsmooth Bool.false_ne_true
  | cut i j => exact absurd hsmooth Bool.false_ne_true
  | fetch =>
    simp only [RecvRelay.stepDeliver] at hstep
    split at hstep
    · next row hpc hfirst =>
      cases hstep
      refine ⟨h.handed rfl (.quiet (fun _ => DeliverPc.noConfusion)
        (hhanding.still fun _ => hpc ▸ DeliverPc.noConfusion)), World.left_lt_deliver rfl ?_⟩
      simp only [World.deliverLeft, hpc]
      split
      · omega
      · omega
    · cases hstep
  | connect =>
    simp only [RecvRelay.stepDeliver] at hstep
    split at hstep
    · next row hpc hpeer =>
      cases hstep
      refine ⟨h.handed rfl (.quiet (fun _ => hpc ▸ DeliverPc.noConfusion) fun c hc =>
        (Option.some.inj hc).symm), World.left_lt_deliver rfl ?_⟩
      simp [World.deliverLeft, hpc, hpeer]
    · cases hstep
  | offer =>
    simp only [RecvRelay.stepDeliver] at hstep
    split at hstep
    · next row c hpc hpeer =>
      obtain rfl := hhanding.still (fun _ => hpc ▸ DeliverPc.noConfusion) c hpeer
      cases hstep
      refine ⟨h.handed rfl .offered, World.left_lt_deliver rfl ?_⟩
      simp [World.deliverLeft, hpc, hpeer]
    · cases hstep
  | answer byte =>
    obtain rfl : byte = 1 := of_decide_eq_true hsmooth
    simp only [RecvRelay.stepDeliver] at hstep
    split at hstep
    · next row c hpc hpeer =>
      split at hstep
      · next item rest hitem =>
        cases hstep
        rw [hpc, hpeer] at hhanding
        cases hhanding with
        | quiet hno => exact absurd rfl (hno row)
        -- it has answered already, and there is nothing more to read
        | answered =>
          rw [localFrames.get_nil] at hitem
          cases hitem
        | offered =>
          -- the frame is all there is to read
          have hrow : W.recv.deliver.row? = some row := by rw [hpc]; rfl
          obtain ⟨r, hdelivery⟩ := hinv.recv.delivery
          have hmem := List.mem_of_getElem? (hdelivery.spooled.first (hdelivery.holding row hrow)).1
          obtain ⟨-, rfl⟩ := localFrames.get_of_prefix
            (localFrameOf_valid (hdelivery.spooled.sized row hmem)) List.prefix_rfl hitem
          refine ⟨h.handed rfl (hpc ▸ .answered), World.left_lt_deliver rfl ?_⟩
          simp [World.deliverLeft, hpc, hpeer]
      · cases hstep
    · cases hstep
  | read =>
    simp only [RecvRelay.stepDeliver] at hstep
    split at hstep
    · next row c hpc hpeer =>
      split at hstep
      · next byte rest hreply =>
        split at hstep
        · cases hstep
          rw [hpc, hpeer] at hhanding
          cases hhanding with
          | quiet hno => exact absurd rfl (hno row)
          -- without an answer `deliver` waits
          | offered => cases hreply
          | answered =>
            cases hreply
            refine ⟨h.handed rfl (.quiet (fun _ => DeliverPc.noConfusion) fun c hc =>
              (Option.some.inj hc).symm), World.left_lt_deliver rfl ?_⟩
            simp [World.deliverLeft, hpc, hpeer]
        · cases hstep
      · cases hstep
    · cases hstep
  | retire =>
    simp only [RecvRelay.stepDeliver] at hstep
    split at hstep
    · next row hpc =>
      cases hstep
      refine ⟨h.handed rfl (.quiet (fun _ => DeliverPc.noConfusion)
        (hhanding.still fun _ => hpc ▸ DeliverPc.noConfusion)), World.left_lt_deliver rfl ?_⟩
      have hrow : W.recv.deliver.row? = some row := by rw [hpc]; rfl
      obtain ⟨r, hdelivery⟩ := hinv.recv.delivery
      -- the row counts for eight, more than the steps for the next one
      have hlength := hdelivery.spooled.length_retire (hdelivery.holding row hrow)
      simp only [World.deliverLeft, hpc]
      omega
    · cases hstep

/-! ### Every step -/

theorem step (h : Smoothly W) (hinv : Inv W) (hdrain : DrainInv W.send) {a : Action}
    (hsmooth : W.smooth a) (htakes : W.takes a) (hstep : W.step a = some W') :
    Smoothly W' ∧ (W.send.ingressDone → W'.left < W.left) := by
  cases a with
  | main a =>
    obtain ⟨send, hmain, rfl⟩ := Option.map_eq_some_iff.mp hstep
    exact h.stepMain hdrain hsmooth hmain
  | transmit a =>
    obtain ⟨⟨send, conns⟩, htransmit, rfl⟩ := Option.map_eq_some_iff.mp hstep
    exact h.stepTransmit hinv hdrain hsmooth htransmit
  | net a =>
    obtain ⟨⟨recv, conns⟩, hnet, rfl⟩ := Option.map_eq_some_iff.mp hstep
    obtain ⟨hnext, hless⟩ := h.stepNet hinv hsmooth htakes hnet
    exact ⟨hnext, fun _ => hless⟩
  | deliver a =>
    obtain ⟨recv, hdeliver, rfl⟩ := Option.map_eq_some_iff.mp hstep
    obtain ⟨hnext, hless⟩ := h.stepDeliver hinv hsmooth hdeliver
    exact ⟨hnext, fun _ => hless⟩
  | cut | crashSend | crashReceive | foreign => exact absurd hsmooth Bool.false_ne_true

end Smoothly

end Durable
end PulseFanout
