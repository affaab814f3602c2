import PulseFanout.Durable.Feeding

/-!
# What the sender has counted is published once

The sending end of the chain has one frame under way at a time: it is on its way to the relay, read
and not stored, stored and not answered, or answered (`Underway`). So the frames the sender has
counted are the first ones of the stream, and those stored are these and at most one more.

With the relays in between (`Durable.Inv`) and `Feeding` at the other end this gives
`counted_published_once`: at every moment, whatever has crashed, been cut or been sent again, the
ring holds the first messages of the stream, in order and each once, and a message that was counted
is there or in one of the two databases.
-/

namespace PulseFanout
namespace Durable

open Framework Msg Multiplex Receiver

/-! ### The sending end -/

/-- Where the frame after the `n` counted ones is; the number is that of the frames stored. -/
inductive Underway (S : Setup) (n : ℕ) (out : List Byte) (held : Option (List Byte)) (due : Bool)
    (reply : List Byte) : ℕ → Prop
  /-- Not yet sent. -/
  | nowhere (hout : out = []) (hheld : held = none) (hdue : due = false) (hreply : reply = []) :
    Underway S n out held due reply n
  | travelling {m : Native} (hm : S.messages[n]? = some m)
    (hout : out <+: localFrames.put (Transport.item (S.datagram m))) (hheld : held = none)
    (hdue : due = false) (hreply : reply = []) : Underway S n out held due reply n
  | read {m : Native} (hm : S.messages[n]? = some m) (hout : out = [])
    (hheld : held = some (S.datagram m)) (hdue : due = false) (hreply : reply = []) :
    Underway S n out held due reply n
  | stored {m : Native} (hm : S.messages[n]? = some m) (hout : out = []) (hheld : held = none)
    (hreply : if due then reply = [] else reply <+: [1]) : Underway S n out held due reply (n + 1)

/-- The sender has counted `n` frames and the relay has stored `e`. -/
structure Sending (S : Setup) (C : Chain S.cfg) (n e : ℕ) : Prop where
  counted : C.client.counted = (S.messages.take n).map S.datagram
  underway : Underway S n C.uplink.out C.held C.due C.uplink.reply e
  /-- Ready to send, it has nothing under way. -/
  ready : C.client.pc = .ready → e = n ∧ C.uplink.out = [] ∧ C.held = none ∧
    C.client.todo = (S.messages.drop n).map S.datagram
  /-- Waiting, it has sent the next one. -/
  waiting : ∀ frame, C.client.pc = .waiting frame →
    (∃ m, S.messages[n]? = some m ∧ frame = S.datagram m) ∧
      C.client.todo = (S.messages.drop (n + 1)).map S.datagram
  stored : S.carried C.relays.send.enqueued = S.messages.take e
  known : ∀ row ∈ C.relays.send.enqueued, S.Known row.payload

namespace Underway

variable {S : Setup} {n e : ℕ} {out reply : List Byte} {held : Option (List Byte)} {due : Bool}

/-- The relay closes the connection, and what it had read and not stored is lost. -/
theorem hungUp (h : Underway S n out held due reply e) : Underway S n [] none false reply e := by
  cases h with
  | nowhere _ _ _ hreply => exact .nowhere rfl rfl rfl hreply
  | travelling hm _ _ _ hreply => exact .nowhere rfl rfl rfl hreply
  | read hm _ _ _ hreply => exact .nowhere rfl rfl rfl hreply
  | stored hm _ _ hreply =>
    refine .stored hm rfl rfl ?_
    rw [if_neg Bool.false_ne_true]
    cases due with
    | false => exact hreply
    | true =>
      rw [if_pos rfl] at hreply
      rw [hreply]
      exact List.nil_prefix

theorem cut (h : Underway S n out held due reply e) (i j : ℕ) :
    Underway S n (out.take i) held due (reply.take j) e := by
  cases h with
  | nowhere hout hheld hdue hreply =>
    exact .nowhere (by rw [hout, List.take_nil]) hheld hdue (by rw [hreply, List.take_nil])
  | travelling hm hout hheld hdue hreply =>
    exact .travelling hm ((List.take_prefix _ _).trans hout) hheld hdue
      (by rw [hreply, List.take_nil])
  | read hm hout hheld hdue hreply =>
    exact .read hm (by rw [hout, List.take_nil]) hheld hdue (by rw [hreply, List.take_nil])
  | stored hm hout hheld hreply =>
    refine .stored hm (by rw [hout, List.take_nil]) hheld ?_
    split
    · next hdue =>
      rw [if_pos hdue] at hreply
      rw [hreply, List.take_nil]
    · next hdue =>
      rw [if_neg hdue] at hreply
      exact (List.take_prefix _ _).trans hreply

/-- The number of frames stored. -/
theorem bounds (h : Underway S n out held due reply e) : n ≤ e ∧ e ≤ n + 1 := by
  cases h with
  | stored => exact ⟨Nat.le_succ n, le_rfl⟩
  | _ => exact ⟨le_rfl, Nat.le_succ n⟩

end Underway

namespace Setup

variable (S : Setup)

/-- A datagram of the stream fits both framings. -/
theorem datagram_size (m : Native) :
    1 ≤ (S.datagram m).length ∧ (S.datagram m).length ≤ maxFrame := by
  have hbounds := Wire.wireSize_bounds m.type
  have hmax : headerSize + Wire.maxFrame ≤ maxFrame := by decide
  rw [datagram, wrap_length, Wire.bytes_length]
  omega

theorem datagram_valid (m : Native) :
    localFrames.Valid (Transport.item (S.datagram m)) := sizeOk_length (S.datagram_size m)

end Setup

namespace Sending

variable {S : Setup} {C : Chain S.cfg} {n e : ℕ}

/-- Steps at the other end. -/
theorem elsewhere (h : Sending S C n e) {C' : Chain S.cfg} (hclient : C'.client = C.client)
    (huplink : C'.uplink = C.uplink) (hheld : C'.held = C.held) (hdue : C'.due = C.due)
    (henqueued : C'.relays.send.enqueued = C.relays.send.enqueued) : Sending S C' n e := by
  refine ⟨?_, ?_, ?_, ?_, ?_, ?_⟩
  · rw [hclient]; exact h.counted
  · rw [huplink, hheld, hdue]; exact h.underway
  · rw [hclient, huplink, hheld]; exact h.ready
  · rw [hclient]; exact h.waiting
  · rw [henqueued]; exact h.stored
  · rw [henqueued]; exact h.known

/-- The relay closes the connection. -/
theorem hungUp (h : Sending S C n e) : Sending S C.hungUp n e := by
  refine ⟨h.counted, h.underway.hungUp, fun hpc => ?_, h.waiting, h.stored, h.known⟩
  obtain ⟨he, -, -, htodo⟩ := h.ready hpc
  exact ⟨he, rfl, rfl, htodo⟩

/-- The relay takes in a frame of somebody else. -/
theorem stranger (h : Sending S C n e) {relays : World} {row : Row Session}
    (hrow : S.Stranger row.payload)
    (henqueued : relays.send.enqueued = C.relays.send.enqueued ++ [row]) :
    Sending S { C with relays } n e := by
  refine ⟨h.counted, h.underway, h.ready, h.waiting, ?_, ?_⟩
  · dsimp only
    rw [henqueued, S.carried_append, h.stored]
    simp [Setup.carried, hrow.message]
  · intro row' hrow'
    dsimp only at hrow'
    rw [henqueued] at hrow'
    rcases List.mem_append.mp hrow' with hrow' | hrow'
    · exact h.known row' hrow'
    · rw [List.mem_singleton.mp hrow']
      exact Or.inl hrow

/-- The sender writes the next frame. -/
theorem send (h : Sending S C n e) {frame : List Byte} {todo : List (List Byte)}
    (hpc : C.client.pc = .ready) (htodo : C.client.todo = frame :: todo) :
    Sending S { C with
      client := { C.client with todo, pc := .waiting frame }
      uplink := if C.uplink.link then
        { C.uplink with out := C.uplink.out ++ localFrames.put (Transport.item frame) }
        else C.uplink } n e := by
  obtain ⟨he, hout, hheld, hall⟩ := h.ready hpc
  rw [htodo] at hall
  -- the next frame is that of message `n`
  obtain ⟨m, hm, hframe, hrest⟩ : ∃ m, S.messages[n]? = some m ∧ frame = S.datagram m ∧
      todo = (S.messages.drop (n + 1)).map S.datagram := by
    cases hdrop : S.messages.drop n with
    | nil =>
      rw [hdrop] at hall
      cases hall
    | cons m rest =>
      rw [hdrop, List.map_cons] at hall
      injection hall with hframe hrest
      refine ⟨m, ?_, hframe, ?_⟩
      · rw [← List.head?_drop, hdrop]
        rfl
      · rw [← List.tail_drop, hdrop, List.tail_cons, hrest]
  have hquiet : C.due = false ∧ C.uplink.reply = [] := by
    cases h.underway with
    | nowhere _ _ hdue hreply => exact ⟨hdue, hreply⟩
    | travelling _ _ _ hdue hreply => exact ⟨hdue, hreply⟩
    | read _ _ _ hdue hreply => exact ⟨hdue, hreply⟩
    | stored => exact absurd he (Nat.succ_ne_self n)
  subst he
  refine ⟨h.counted, ?_, ClientPc.noConfusion, fun frame' hpc' => ?_, h.stored, h.known⟩
  · refine .travelling hm ?_ hheld hquiet.1 ?_
    · dsimp only
      split
      · rw [hout, List.nil_append, hframe]
      · rw [hout]
        exact List.nil_prefix
    · dsimp only
      split
      · exact hquiet.2
      · exact hquiet.2
  · injection hpc' with heq
    exact ⟨⟨m, hm, heq ▸ hframe⟩, hrest⟩

/-- The sender reads an answer: it is the byte one, and the frame is counted. -/
theorem readAck (h : Sending S C n e) {frame : List Byte} {byte : Byte} {reply : List Byte}
    (hpc : C.client.pc = .waiting frame) (hreply : C.uplink.reply = byte :: reply) :
    byte = 1 ∧ Sending S { C with
      uplink := { C.uplink with reply }
      client := { C.client with pc := .ready, counted := C.client.counted ++ [frame] } }
      (n + 1) e := by
  obtain ⟨⟨m, hm, hframe⟩, htodo⟩ := h.waiting frame hpc
  have hunder := h.underway
  rw [hreply] at hunder
  cases hunder with
  | nowhere _ _ _ hnil => cases hnil
  | travelling _ _ _ _ hnil => cases hnil
  | read _ _ _ _ hnil => cases hnil
  | stored _ hout hheld hanswer =>
    split at hanswer
    · cases hanswer
    next hdue =>
    rw [List.cons_prefix_cons, List.prefix_nil] at hanswer
    obtain ⟨hone, hrest⟩ := hanswer
    refine ⟨hone, ⟨?_, .nowhere hout hheld (Bool.eq_false_of_not_eq_true hdue) hrest,
      fun _ => ⟨rfl, hout, hheld, htodo⟩, fun _ => ClientPc.noConfusion, h.stored, h.known⟩⟩
    dsimp only
    rw [h.counted, List.take_add_one, hm, hframe, List.map_append]
    rfl

/-- The sender stops. -/
theorem giveUp (h : Sending S C n e) :
    Sending S { C with
      client := { C.client with pc := .failed }
      uplink := { C.uplink with link := false } } n e :=
  ⟨h.counted, h.underway, ClientPc.noConfusion, fun _ => ClientPc.noConfusion, h.stored, h.known⟩

/-- The relay reads a frame. -/
theorem take (h : Sending S C n e) {size : BitVec 16} {payload out : List Byte}
    (hheld : C.held = none) (hget : localFrames.get C.uplink.out = .item (size, payload) out) :
    Sending S { C with held := some payload, uplink := { C.uplink with out } } n e := by
  have hsome : C.uplink.out ≠ [] := by
    intro hnil
    rw [hnil, localFrames.get_nil] at hget
    cases hget
  refine ⟨h.counted, ?_, fun hpc => absurd (h.ready hpc).2.1 hsome, h.waiting, h.stored, h.known⟩
  cases h.underway with
  | nowhere hout => exact absurd hout hsome
  | travelling hm hpre _ hdue hreply =>
    obtain ⟨hitem, hrest⟩ := localFrames.get_of_prefix (S.datagram_valid _) hpre hget
    injection hitem with _ hpayload
    exact .read hm hrest (congrArg some hpayload) hdue hreply
  | read _ _ hread =>
    rw [hheld] at hread
    cases hread
  | stored _ hout => exact absurd hout hsome

/-- The relay stores the frame it has read. -/
theorem store (h : Sending S C n e) {payload : List Byte} (hheld : C.held = some payload)
    {relays : World} {row : Row Session} (hrow : row.payload = payload)
    (henqueued : relays.send.enqueued = C.relays.send.enqueued ++ [row]) :
    Sending S { C with relays, held := none, due := true } n (n + 1) := by
  cases h.underway with
  | nowhere _ hnone => rw [hheld] at hnone; cases hnone
  | travelling _ _ hnone => rw [hheld] at hnone; cases hnone
  | stored _ _ hnone => rw [hheld] at hnone; cases hnone
  | @read m hm hout hread _ hreply =>
    obtain rfl : payload = S.datagram m := Option.some.inj (hheld.symm.trans hread)
    have hmsg := S.message_datagram (List.mem_of_getElem? hm)
    refine ⟨h.counted, .stored hm hout rfl (by rw [if_pos rfl]; exact hreply), fun hpc => ?_,
      h.waiting, ?_, ?_⟩
    · have hnone := (h.ready hpc).2.2.1
      rw [hheld] at hnone
      cases hnone
    · dsimp only
      rw [henqueued, S.carried_append, h.stored, List.take_add_one, hm]
      simp [Setup.carried, hrow, hmsg]
    · intro row' hrow'
      dsimp only at hrow'
      rw [henqueued] at hrow'
      rcases List.mem_append.mp hrow' with hrow' | hrow'
      · exact h.known row' hrow'
      · rw [List.mem_singleton.mp hrow', hrow]
        exact Or.inr ⟨m, hmsg⟩

/-- The relay answers. -/
theorem answer (h : Sending S C n e) (hdue : C.due = true) :
    Sending S { C with
      due := false
      uplink := if C.uplink.link then { C.uplink with reply := C.uplink.reply ++ [1] }
        else C.uplink } n e := by
  have hout : (if C.uplink.link then { C.uplink with reply := C.uplink.reply ++ [1] }
      else C.uplink).out = C.uplink.out := by
    split <;> rfl
  refine ⟨h.counted, ?_, fun hpc => ?_, h.waiting, h.stored, h.known⟩
  · cases h.underway with
    | nowhere _ _ hno => rw [hdue] at hno; cases hno
    | travelling _ _ _ hno => rw [hdue] at hno; cases hno
    | read _ _ _ hno => rw [hdue] at hno; cases hno
    | stored hm hnil hheld hreply =>
      rw [if_pos hdue] at hreply
      refine .stored hm (hout.trans hnil) hheld ?_
      rw [if_neg Bool.false_ne_true]
      split
      · rw [hreply, List.nil_append]
      · rw [hreply]
        exact List.nil_prefix
  · obtain ⟨he, hnil, hheld, htodo⟩ := h.ready hpc
    exact ⟨he, hout.trans hnil, hheld, htodo⟩

/-- The connection breaks. -/
theorem cut (h : Sending S C n e) (i j : ℕ) :
    Sending S { C with uplink := ⟨C.uplink.out.take i, C.uplink.reply.take j, false⟩ } n e := by
  refine ⟨h.counted, h.underway.cut i j, fun hpc => ?_, h.waiting, h.stored, h.known⟩
  obtain ⟨he, hnil, hheld, htodo⟩ := h.ready hpc
  exact ⟨he, by dsimp only; rw [hnil, List.take_nil], hheld, htodo⟩

end Sending

/-! ### The system -/

/-- What holds of the chain at every moment. -/
structure Linked (S : Setup) (C : Chain S.cfg) : Prop where
  relays : Inv C.relays
  sending : ∃ n e, Sending S C n e
  feeding : ∃ r t, Feeding S C.relays.recv C.backlog C.receiver r t
  /-- Other sessions carry other streams. -/
  others : ∀ row ∈ C.relays.recv.accepted, row.session ≠ C.relays.send.outbox.session →
    S.Stranger row.payload

namespace Linked

variable {S : Setup} {C C' : Chain S.cfg}

/-- The rows accepted carry messages that were stored, in their order. -/
theorem order (h : Linked S C) :
    S.carried C.relays.recv.accepted <+: S.carried C.relays.send.enqueued ∧
    ∀ row ∈ C.relays.recv.accepted, S.Known row.payload := by
  obtain ⟨n, e, hsending⟩ := h.sending
  have hmine := h.relays.recv.mine
  constructor
  · have hfilter : S.carried C.relays.recv.accepted =
        (((C.relays.recv.accepted.filter fun row =>
          row.session = C.relays.send.outbox.session).map Row.payload).filterMap S.message) := by
      rw [List.filterMap_map, List.filterMap_filter]
      refine List.filterMap_congr fun row hrow => ?_
      by_cases hsession : row.session = C.relays.send.outbox.session
      · simp [hsession]
      · simp [hsession, (h.others row hrow hsession).message]
    rw [hfilter, hmine, ← List.map_take, List.filterMap_map]
    exact S.carried_mono (List.take_prefix _ _)
  · intro row hrow
    by_cases hsession : row.session = C.relays.send.outbox.session
    · have hmem : row.payload ∈ (C.relays.recv.accepted.filter fun row =>
          row.session = C.relays.send.outbox.session).map Row.payload :=
        List.mem_map_of_mem (List.mem_filter.mpr ⟨hrow, by simpa using hsession⟩)
      rw [hmine] at hmem
      obtain ⟨row', hrow', heq⟩ := List.mem_map.mp (List.mem_of_mem_take hmem)
      rw [← heq]
      exact hsending.known row' hrow'
    · exact Or.inl (h.others row hrow hsession)

/-- Steps of the sender and of the relay it is connected to. -/
theorem upstream (h : Linked S C) (hrelays : C'.relays = C.relays)
    (hbacklog : C'.backlog = C.backlog)
    (hreceiver : C'.receiver = C.receiver) (hsending : ∃ n e, Sending S C' n e) : Linked S C' := by
  refine ⟨?_, hsending, ?_, ?_⟩
  · rw [hrelays]; exact h.relays
  · rw [hrelays, hbacklog, hreceiver]; exact h.feeding
  · rw [hrelays]; exact h.others

/-- What a step of the relays does to the sending end. -/
theorem relay_sending (h : Linked S C) {a : Action} {relays : World} (hallowed : C.allowed S a)
    (hstep : C.relays.step a = some relays) : ∃ n e, Sending S (C.aside relays a) n e := by
  obtain ⟨n, e, hsending⟩ := h.sending
  refine ⟨n, e, ?_⟩
  rcases (World.step_enqueued hstep).2 with hsame | ⟨payload, row, rfl, hrow, henqueued⟩
  · unfold Chain.aside
    split
    · exact hsending.hungUp.elsewhere rfl rfl rfl rfl hsame
    · exact hsending.hungUp.elsewhere rfl rfl rfl rfl hsame
    · exact hsending.hungUp.elsewhere rfl rfl rfl rfl hsame
    · exact hsending.elsewhere rfl rfl rfl rfl hsame
    · exact hsending.elsewhere rfl rfl rfl rfl hsame
    · exact hsending.elsewhere rfl rfl rfl rfl hsame
  · have hstranger : S.Stranger payload := of_decide_eq_true hallowed
    exact hsending.stranger (hrow ▸ hstranger) henqueued

/-- And to the receiving end. -/
theorem relay_feeding (h : Linked S C) {a : Action} {relays : World} (hallowed : C.allowed S a)
    (hstep : C.relays.step a = some relays) :
    ∃ r t, Feeding S (C.aside relays a).relays.recv (C.aside relays a).backlog
      (C.aside relays a).receiver r t := by
  obtain ⟨r, t, hfeeding⟩ := h.feeding
  have hplain : (∀ b, a = .deliver b → b ≠ .fail) → a ≠ .crashReceive →
      (C.aside relays a).relays = relays ∧ (C.aside relays a).backlog = C.backlog ∧
        (C.aside relays a).receiver = C.receiver := by
    intro hfail hcrash
    unfold Chain.aside
    split
    · exact ⟨rfl, rfl, rfl⟩
    · exact ⟨rfl, rfl, rfl⟩
    · exact ⟨rfl, rfl, rfl⟩
    · exact absurd rfl hcrash
    · exact absurd rfl (hfail _ rfl)
    · exact ⟨rfl, rfl, rfl⟩
  cases h.relays.recvMove hstep with
  | crash heq =>
    refine ⟨r, t, ?_⟩
    change Feeding S relays.recv C.abandoned C.receiver r t
    rw [heq]
    exact hfeeding.abandon hfeeding.delivery.restart rfl rfl rfl rfl rfl
  | @deliver b hdeliver =>
    by_cases hfail : b = .fail
    · subst hfail
      refine ⟨r, t, ?_⟩
      change Feeding S relays.recv C.abandoned C.receiver r t
      obtain ⟨r', hdelivery⟩ := hfeeding.delivery.step (RecvRelay.stepDeliver_cases hdeliver)
      generalize relays.recv = recv at hdeliver hdelivery
      simp only [RecvRelay.stepDeliver] at hdeliver
      split at hdeliver
      · cases hdeliver
        exact hfeeding.abandon hdelivery rfl rfl rfl rfl rfl
      · cases hdeliver
    · obtain ⟨hrelays, hbacklog, hreceiver⟩ := hplain
        (fun b' hb' => by injection hb' with heq; exact heq ▸ hfail) Action.noConfusion
      rw [hrelays, hbacklog, hreceiver]
      have hanswer : ∀ byte, b ≠ .answer byte := by
        rintro byte rfl
        exact Bool.false_ne_true hallowed
      obtain ⟨r', hdone⟩ := hfeeding.deliver hanswer hfail hdeliver
      exact ⟨r', t, hdone⟩
  | took htake heq hwho =>
    have hnot : (∀ b, a ≠ .deliver b) ∧ a ≠ .crashReceive := by
      rcases hwho with ⟨⟨b, rfl⟩, -⟩ | rfl
      · exact ⟨fun _ => Action.noConfusion, Action.noConfusion⟩
      · exact ⟨fun _ => Action.noConfusion, Action.noConfusion⟩
    obtain ⟨hrelays, hbacklog, hreceiver⟩ :=
      hplain (fun b hb => absurd hb (hnot.1 b)) hnot.2
    rw [hrelays, hbacklog, hreceiver, heq]
    exact ⟨r, t, (hfeeding.took htake).due _⟩
  | other heq hb hcrash =>
    obtain ⟨hrelays, hbacklog, hreceiver⟩ :=
      hplain (fun b hb' => absurd hb' (hb b)) hcrash
    rw [hrelays, hbacklog, hreceiver, heq]
    exact ⟨r, t, hfeeding.due _⟩

/-- **A step of the relays.** -/
theorem relay (h : Linked S C) {a : Action} {relays : World} (hallowed : C.allowed S a)
    (hstep : C.relays.step a = some relays) : Linked S (C.aside relays a) := by
  have hrelays : (C.aside relays a).relays = relays := by
    unfold Chain.aside
    split <;> rfl
  refine ⟨?_, h.relay_sending hallowed hstep, h.relay_feeding hallowed hstep, ?_⟩
  · rw [hrelays]
    exact h.relays.step hstep
  · rw [hrelays, (World.step_enqueued hstep).1]
    have hold : ∀ {R : RecvRelay}, R.accepted = C.relays.recv.accepted → ∀ row ∈ R.accepted,
        row.session ≠ C.relays.send.outbox.session → S.Stranger row.payload := fun heq row hrow =>
      h.others row (heq ▸ hrow)
    cases h.relays.recvMove hstep with
    | crash heq => exact heq ▸ hold rfl
    | deliver hdeliver => exact hold (RecvRelay.stepDeliver_cases hdeliver).frame.1
    | other heq => exact heq ▸ hold rfl
    | took htake heq hwho =>
      rw [heq]
      rcases RecvRelay.take_cases htake with ⟨-, rfl⟩ | ⟨-, -, -, inbox, rfl, -⟩
      · exact hold rfl
      · intro row hrow hne
        rcases List.mem_append.mp hrow with hrow | hrow
        · exact h.others row hrow hne
        · rw [List.mem_singleton.mp hrow] at hne ⊢
          rcases hwho with ⟨-, hsession, -⟩ | rfl
          · exact absurd hsession hne
          · exact of_decide_eq_true hallowed

/-- **The receiver reads** what `deliver` has sent. -/
theorem receiveCurrent (h : Linked S C) {now : ℕ} (hnil : C.backlog = [])
    (hstep : C.receiveCurrent now = some C') : Linked S C' := by
  obtain ⟨n, e, hsending⟩ := h.sending
  obtain ⟨r, t, hfeeding⟩ := h.feeding
  obtain ⟨hmessages, hknown⟩ := h.order
  have horder : S.carried C.relays.recv.accepted <+: S.messages :=
    hmessages.trans (hsending.stored ▸ List.take_prefix _ _)
  unfold Chain.receiveCurrent at hstep
  split at hstep
  · cases hstep
  next c hpeer =>
  split at hstep
  · cases hstep
  · obtain ⟨relays, hcut, rfl⟩ := Option.map_eq_some_iff.mp hstep
    exact h.relay rfl hcut
  next size payload rest hget =>
  have hout : c.out ≠ [] := by
    intro hempty
    rw [hempty, receiverFrames.get_nil] at hget
    cases hget
  -- what it reads is the row under way
  obtain ⟨row, hpc, hrow, hpre⟩ := (hfeeding.out hpeer).resolve_left hout
  obtain ⟨rfl, rfl, hlocal⟩ := hfeeding.read_whole hrow hpre hget
  obtain ⟨t', -, hfed, hyes⟩ :=
    hfeeding.fed hrow (hknown row (List.mem_of_getElem? hrow)) horder now
  rw [hnil] at hfed
  dsimp only at hstep
  split at hstep
  · next ok hanswers =>
    obtain ⟨relays, hanswer, rfl⟩ := Option.map_eq_some_iff.mp hstep
    have hinv := h.relays.step hanswer
    obtain ⟨recv, hdeliver, rfl⟩ := Option.map_eq_some_iff.mp hanswer
    simp only [RecvRelay.stepDeliver, hpc, hpeer, hlocal, Option.some.injEq] at hdeliver
    subst hdeliver
    refine ⟨hinv, ⟨n, e, hsending.elsewhere rfl rfl rfl rfl rfl⟩, ⟨r, t', ?_⟩, h.others⟩
    have hdone := hfed.answered (if ok then 1 else 0) hpc hpeer hlocal fun hone => hyes <| by
      cases ok with
      | true => exact hanswers
      | false => cases hone
    rw [hpc] at hdone
    dsimp only
    rw [hnil]
    exact hdone
  · cases hstep
    obtain ⟨r', hold⟩ := h.relays.recv.delivery
    refine ⟨⟨h.relays.send, h.relays.conns, h.relays.net, h.relays.recv.mine, h.relays.recv.le,
      r', hold.mute hpc hpeer hout⟩, ⟨n, e, hsending.elsewhere rfl rfl rfl rfl rfl⟩,
      ⟨r, t', ?_⟩, h.others⟩
    dsimp only
    rw [hnil]
    exact hfed.same (hfed.delivery.mute hpc hpeer hout) rfl rfl (fun _ hid => hid)
      fun hne => absurd rfl hne

/-- **The receiver reads.** -/
theorem receive (h : Linked S C) {now : ℕ} (hstep : C.receive now = some C') : Linked S C' := by
  unfold Chain.receive at hstep
  split at hstep
  · next hnil => exact h.receiveCurrent hnil hstep
  next bytes backlog hbacklog =>
  obtain ⟨n, e, hsending⟩ := h.sending
  obtain ⟨r, t, hfeeding⟩ := h.feeding
  obtain ⟨hmessages, hknown⟩ := h.order
  have horder : S.carried C.relays.recv.accepted <+: S.messages :=
    hmessages.trans (hsending.stored ▸ List.take_prefix _ _)
  rw [hbacklog] at hfeeding
  have hsettled := hfeeding.settled (List.cons_ne_nil _ _)
  split at hstep
  · next size payload rest hget =>
    cases hstep
    rcases hfeeding.left bytes List.mem_cons_self with rfl | ⟨row, hrow, hpre⟩
    · rw [receiverFrames.get_nil] at hget
      cases hget
    obtain ⟨rfl, rfl, -⟩ := hfeeding.read_whole hrow hpre hget
    obtain ⟨t', -, hfed, -⟩ :=
      hfeeding.fed hrow (hknown row (List.mem_of_getElem? hrow)) horder now
    refine ⟨h.relays, ⟨n, e, hsending.elsewhere rfl rfl rfl rfl rfl⟩, ⟨r, t', ?_⟩, h.others⟩
    refine { hfed with left := fun bytes' hbytes' => ?_, settled := fun _ => hsettled }
    rcases List.mem_cons.mp hbytes' with rfl | hbytes'
    · exact Or.inl rfl
    · exact hfed.left bytes' (List.mem_cons_of_mem _ hbytes')
  · cases hstep
    refine ⟨h.relays, ⟨n, e, hsending.elsewhere rfl rfl rfl rfl rfl⟩, ⟨r, t, ?_⟩, h.others⟩
    exact { hfeeding with
      left := fun bytes' hbytes' => hfeeding.left bytes' (List.mem_cons_of_mem _ hbytes')
      settled := fun _ => hsettled }

/-- **The relay stores** the frame it has read, or finds the spool full. -/
theorem store (h : Linked S C) (hstep : C.step S .store = some C') : Linked S C' := by
  obtain ⟨n, e, hsending⟩ := h.sending
  simp only [Chain.step] at hstep
  split at hstep
  · cases hstep
  next payload hheld =>
  obtain ⟨relays, hrelay, rfl⟩ := Option.map_eq_some_iff.mp hstep
  have hinv := h.relays.step hrelay
  obtain ⟨send, hmain, rfl⟩ := Option.map_eq_some_iff.mp hrelay
  simp only [SendRelay.stepMain] at hmain
  split at hmain
  · rcases C.relays.send.outbox.enqueue_outcome .ample payload with ⟨err, heq⟩ | ⟨-, -, -, heq⟩
    · rw [heq] at hmain
      cases hmain
      simp only [heq]
      exact h
    · rw [heq] at hmain
      cases hmain
      simp only [heq]
      exact ⟨hinv, ⟨n, n + 1, hsending.store hheld rfl rfl⟩, h.feeding, h.others⟩
  · cases hmain

/-- **Every step.** -/
theorem step (h : Linked S C) {a : Move} (hstep : C.step S a = some C') : Linked S C' := by
  obtain ⟨n, e, hsending⟩ := h.sending
  cases a with
  | relay a =>
    simp only [Chain.step] at hstep
    split at hstep
    · next hallowed =>
      obtain ⟨relays, hrelay, rfl⟩ := Option.map_eq_some_iff.mp hstep
      exact h.relay hallowed hrelay
    · cases hstep
  | send =>
    simp only [Chain.step] at hstep
    split at hstep
    · next hpc htodo =>
      cases hstep
      exact h.upstream rfl rfl rfl ⟨n, e, hsending.send hpc htodo⟩
    · cases hstep
  | readAck =>
    simp only [Chain.step] at hstep
    split at hstep
    · next hpc hreply =>
      obtain ⟨hone, hcounted⟩ := hsending.readAck hpc hreply
      rw [if_pos hone] at hstep
      cases hstep
      exact h.upstream rfl rfl rfl ⟨n + 1, e, hcounted⟩
    · cases hstep
  | giveUp =>
    cases hstep
    exact h.upstream rfl rfl rfl ⟨n, e, hsending.giveUp⟩
  | take =>
    simp only [Chain.step] at hstep
    split at hstep
    · next hheld _ =>
      split at hstep
      · split at hstep
        · next hget =>
          cases hstep
          exact h.upstream rfl rfl rfl ⟨n, e, hsending.take hheld hget⟩
        · cases hstep
      · cases hstep
    · cases hstep
  | store => exact h.store hstep
  | answer =>
    simp only [Chain.step] at hstep
    split at hstep
    · next hdue =>
      cases hstep
      exact h.upstream rfl rfl rfl ⟨n, e, hsending.answer hdue⟩
    · cases hstep
  | cutUplink i j =>
    cases hstep
    exact h.upstream rfl rfl rfl ⟨n, e, hsending.cut i j⟩
  | receive now => exact h.receive hstep
  | tick now =>
    obtain ⟨r, t, hfeeding⟩ := h.feeding
    cases hstep
    exact ⟨h.relays, ⟨n, e, hsending.elsewhere rfl rfl rfl rfl rfl⟩, ⟨r, t, hfeeding.tick now⟩,
      h.others⟩

theorem start (outbox inbox : ℕ × String × Session) : Linked S (chain S outbox inbox).start := by
  obtain ⟨r, hdelivery⟩ := (Inv.start outbox inbox).recv.delivery
  obtain rfl : r = 0 := Nat.le_zero.mp hdelivery.spooled.le
  refine ⟨Inv.start outbox inbox, ⟨0, 0, ?_⟩, ⟨0, 0, ?_⟩,
    fun _ hrow => absurd hrow List.not_mem_nil⟩
  · exact ⟨rfl, .nowhere rfl rfl rfl rfl, fun _ => ⟨rfl, rfl, rfl, rfl⟩,
      fun _ => ClientPc.noConfusion, rfl, fun _ hrow => absurd hrow List.not_mem_nil⟩
  · exact ⟨hdelivery, le_rfl, Nat.zero_le _, le_rfl, fun _ hid => absurd hid List.not_mem_nil,
      InStep.start, fun _ hbytes => absurd hbytes List.not_mem_nil, fun hne => absurd rfl hne⟩

/-- **Every run.** -/
theorem reachable {outbox inbox : ℕ × String × Session}
    (h : (chain S outbox inbox).Reachable C) : Linked S C :=
  h.invariant (start outbox inbox) fun hlinked hstep => hlinked.step hstep

/-! ### The guarantee -/

/-- A stored message is in a database, or among the rows published. -/
theorem somewhere (h : Linked S C) {r t : ℕ}
    (hfeeding : Feeding S C.relays.recv C.backlog C.receiver r t) {m : Native}
    (hm : m ∈ S.carried C.relays.send.enqueued) :
    S.datagram m ∈ C.relays.send.outbox.pending.map Row.payload ∨
      S.datagram m ∈ C.relays.recv.inbox.pending.map Row.payload ∨
      m ∈ S.carried (C.relays.recv.accepted.take t) := by
  obtain ⟨row, hrow, hmsg⟩ := List.mem_filterMap.mp hm
  have hpayload := (S.message_some hmsg).2
  obtain ⟨j, hj, rfl⟩ := List.mem_iff_getElem.mp hrow
  obtain ⟨s, hs, hspooled⟩ := h.relays.send.spooled
  rcases hspooled.pending_or hj with hpending | hretired
  · exact Or.inl (hpayload ▸ List.mem_map_of_mem hpending)
  right
  -- it is below the mark, so the other relay has accepted it
  have haccepted : S.datagram m ∈ (C.relays.send.enqueued.map Row.payload).take C.relays.mark := by
    rw [← hpayload, List.mem_take_iff_getElem]
    refine ⟨j, ?_, List.getElem_map _⟩
    rw [List.length_map]
    exact lt_min (hretired.trans_le hs) hj
  rw [World.mark, ← h.relays.recv.mine] at haccepted
  obtain ⟨row', hrow', heq⟩ := List.mem_map.mp haccepted
  obtain ⟨k, hk, rfl⟩ := List.mem_iff_getElem.mp (List.mem_of_mem_filter hrow')
  rcases hfeeding.delivery.spooled.pending_or hk with hpending | hdone
  · exact Or.inl (heq ▸ List.mem_map_of_mem hpending)
  · refine Or.inr (List.mem_filterMap.mpr ⟨_, List.mem_take_iff_getElem.mpr
      ⟨k, lt_min (hdone.trans_le hfeeding.lower) hk, rfl⟩, ?_⟩)
    rw [heq, ← hpayload, hmsg]

end Linked

/-- **What the sender has counted is published once.** In every state the chain can reach, whatever
was interleaved, cut and restarted:

* the frames the sender has counted are the first `n` of its stream;
* the ring holds the first `p` messages of the stream, in order and each once, at most one of them
  not yet counted;
* every message counted is on the ring, or still in one of the two databases. -/
theorem counted_published_once {S : Setup} {outbox inbox : ℕ × String × Session} {C : Chain S.cfg}
    (h : (chain S outbox inbox).Reachable C) :
    ∃ n p, C.client.counted = (S.messages.take n).map S.datagram ∧ p ≤ n + 1 ∧
      (framesOf S.key C.receiver.out.ring).map Published.frame = S.messages.take p ∧
      ∀ m ∈ S.messages.take n,
        S.datagram m ∈ C.relays.send.outbox.pending.map Row.payload ∨
          S.datagram m ∈ C.relays.recv.inbox.pending.map Row.payload ∨ m ∈ S.messages.take p := by
  have hlinked := Linked.reachable h
  obtain ⟨n, e, hsending⟩ := hlinked.sending
  obtain ⟨r, t, hfeeding⟩ := hlinked.feeding
  obtain ⟨hle, hupper⟩ := hsending.underway.bounds
  -- what is published are the first messages of those stored
  have hpublished : S.carried (C.relays.recv.accepted.take t) <+: S.messages.take e :=
    (S.carried_mono (List.take_prefix _ _)).trans (hsending.stored ▸ hlinked.order.1)
  have hring : (framesOf S.key C.receiver.out.ring).map Published.frame =
      S.carried (C.relays.recv.accepted.take t) := hfeeding.books.ring
  have htake : S.carried (C.relays.recv.accepted.take t) =
      S.messages.take (S.carried (C.relays.recv.accepted.take t)).length :=
    List.prefix_iff_eq_take.mp (hpublished.trans (List.take_prefix _ _))
  refine ⟨n, _, hsending.counted, ?_, hring.trans htake, fun m hm => ?_⟩
  · exact (hpublished.length_le.trans (List.length_take_le _ _)).trans hupper
  · have hstored : m ∈ S.carried C.relays.send.enqueued := by
      rw [hsending.stored]
      exact (List.take_prefix_take_left hle).subset hm
    rw [← htake]
    exact hlinked.somewhere hfeeding hstored

/-- Message number `n` of a stream of trades. -/
def tradeNumbered (n : BitVec 64) : Native :=
  .trade { Wire.goldenTrade with header := { Wire.goldenTrade.header with seqId := n } }

/-- Two trades, for a receiver with the smallest window. -/
def twoTrades : Setup where
  cfg := { smallConfig with ackPublish := true }
  dedupe := rfl
  ack := rfl
  echo := rfl
  key := ⟨11, 12⟩
  stream_ne := by decide
  epoch_ne := by decide
  messages := [tradeNumbered 1, tradeNumbered 2]
  valid := by
    intro m hm
    rcases List.mem_cons.mp hm with rfl | hm
    · exact ⟨by decide, rfl⟩
    · rw [List.mem_singleton.mp hm]
      exact ⟨by decide, rfl⟩
  increasing := by decide
  clear := by decide

/-- The first trade is counted, and the relay dies when it has stored the second. The receiver gets
the first one; its answer is lost, and the row is offered again. -/
def answerLost : List Move :=
  [.send, .take, .store, .answer, .readAck, .send, .take, .store, .relay .crashSend,
    .relay (.transmit .testStop), .relay (.transmit .fetch), .relay (.transmit .connect),
    .relay (.transmit .send), .relay (.net (.receive 0)), .relay (.net .ack),
    .relay (.deliver .fetch), .relay (.deliver .connect), .relay (.deliver .offer), .receive 5,
    .relay (.deliver .fail), .relay (.deliver .fetch), .relay (.deliver .connect),
    .relay (.deliver .offer), .receive 6, .receive 7, .relay (.deliver .read),
    .relay (.deliver .retire)]

theorem reoffered_row_published_once :
    let M := chain twoTrades (8192, "out", 1) (8192, "in", 2)
    ∃ C, M.run M.start answerLost = some C ∧ C.client.counted.length = 1 ∧
      C.relays.recv.log = [.offered 1 (twoTrades.datagram (tradeNumbered 1)), .acked 1,
        .offered 1 (twoTrades.datagram (tradeNumbered 1)), .acked 1, .retired 1] ∧
      (framesOf ⟨11, 12⟩ C.receiver.out.ring).map Published.frame = [tradeNumbered 1] := by
  intro M
  have hfacts : (M.run M.start answerLost).map (fun C => (C.client.counted.length,
        C.relays.recv.log, (framesOf ⟨11, 12⟩ C.receiver.out.ring).length)) =
      some (1, [.offered 1 (twoTrades.datagram (tradeNumbered 1)), .acked 1,
        .offered 1 (twoTrades.datagram (tradeNumbered 1)), .acked 1, .retired 1], 1) := by
    decide +kernel
  obtain ⟨C, hrun, heq⟩ := Option.map_eq_some_iff.mp hfacts
  injection heq with hcounted heq
  injection heq with hlog hlen
  obtain ⟨n, p, -, -, hring, -⟩ := counted_published_once (S := twoTrades) ⟨_, hrun⟩
  refine ⟨C, hrun, hcounted, hlog, hring.trans ?_⟩
  -- one frame is on the ring, so it is the first
  have hp := congrArg List.length hring
  rw [List.length_map, List.length_take] at hp
  have htwo : twoTrades.messages.length = 2 := rfl
  obtain rfl : p = 1 := by
    rw [htwo] at hp
    have hone : min p 2 = 1 := hp.symm.trans hlen
    omega
  rfl

end Durable
end PulseFanout
