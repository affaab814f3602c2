import PulseFanout.Durable.Chain

/-!
# The receiving end of the chain

`deliver` offers a row until the receiver has answered it, so the receiver may get a row any number
of times: because the answer was lost, because it came too late, or because the relay was started
again. `Feeding R backlog V r t` says where the two stand: `r` rows are retired, `t` rows have been
published, and `t` is `r` or `r + 1`. What can still be read, on the connection of `deliver` or in
the backlog, is the row after those retired; once an answer to that row is on its way back, the
backlog is empty. So a row is never read after a later one, which is what the window of the stream
needs (`Receiver.InStep`).

Every way the relays can move has its lemma, and `Feeding.fed` is the step of the receiver.
-/

namespace PulseFanout
namespace Durable

open Framework Msg Multiplex Receiver

/-! ### Payloads of the stream -/

namespace Setup

variable (S : Setup) {m : Native} {payload : List Byte}

theorem datagram_key (m : Native) (now : ℕ) :
    (Input.datagram (S.datagram m) false now).key? = some S.key := by
  have hopen : unwrap (S.datagram m) {} = (some (Wire.bytes m), S.key) :=
    unwrap_eq_some.mpr ⟨rfl, S.stream_ne, S.epoch_ne⟩
  unfold Input.key? Input.envelope?
  dsimp only
  rw [if_neg Bool.false_ne_true, hopen]
  rfl

/-- A payload carries one message. -/
theorem datagram_inj {m' : Native} (hm : m ∈ S.messages) (hm' : m' ∈ S.messages)
    (h : S.datagram m = S.datagram m') : m = m' := by
  have hbytes : Wire.bytes m = Wire.bytes m' := List.append_cancel_left h
  have hdec := Wire.decode_encode m (S.valid m hm).1 ⟨none, 0⟩
  rw [hbytes, Wire.decode_encode m' (S.valid m' hm').1] at hdec
  injection hdec with _ hout
  injection hout with hframe _
  exact (Option.some.inj hframe).symm

theorem message_datagram (hm : m ∈ S.messages) : S.message (S.datagram m) = some m := by
  unfold message
  cases hfind : S.messages.find? fun m' => S.datagram m' = S.datagram m with
  | none => exact absurd (List.find?_eq_none.mp hfind m hm) (by simp)
  | some m' =>
    have heq := List.find?_some hfind
    rw [S.datagram_inj (List.mem_of_find?_eq_some hfind) hm (of_decide_eq_true heq)]

theorem message_some (h : S.message payload = some m) :
    m ∈ S.messages ∧ payload = S.datagram m := by
  unfold message at h
  have heq := List.find?_some h
  exact ⟨List.mem_of_find?_eq_some h, (of_decide_eq_true heq).symm⟩

theorem Stranger.message (h : S.Stranger payload) : S.message payload = none := by
  cases hmsg : S.message payload with
  | none => rfl
  | some m =>
    obtain ⟨-, rfl⟩ := S.message_some hmsg
    exact absurd (S.datagram_key m 0) h

/-- A payload is of another stream, or a message of this one. -/
def Known (payload : List Byte) : Prop := S.Stranger payload ∨ ∃ m, S.message payload = some m

/-- The messages that rows carry. -/
def carried (rows : List (Row Session)) : List Native :=
  rows.filterMap fun row => S.message row.payload

theorem carried_append (rows more : List (Row Session)) :
    S.carried (rows ++ more) = S.carried rows ++ S.carried more := List.filterMap_append

theorem carried_mono {rows all : List (Row Session)} (h : rows <+: all) :
    S.carried rows <+: S.carried all := by
  obtain ⟨more, rfl⟩ := h
  rw [carried_append]
  exact List.prefix_append _ _

/-- One row more. -/
theorem carried_take_succ {rows : List (Row Session)} {i : ℕ} {row : Row Session}
    (h : rows[i]? = some row) :
    S.carried (rows.take (i + 1)) =
      S.carried (rows.take i) ++ (S.message row.payload).toList := by
  rw [List.take_add_one, carried_append, h]
  cases hmsg : S.message row.payload with
  | none => simp [carried, hmsg]
  | some m => simp [carried, hmsg]

/-- A message that follows others has a larger number. -/
theorem seq_lt {before : List Native} (h : before ++ [m] <+: S.messages) :
    ∀ m' ∈ before, seqOf m' < seqOf m := by
  obtain ⟨after, heq⟩ := h
  have hpair := S.increasing
  rw [← heq, List.map_append, List.pairwise_append, List.map_append, List.pairwise_append] at hpair
  intro m' hm'
  exact hpair.1.2.2 _ (List.mem_map_of_mem hm') _ (by simp)

end Setup

/-! ### Where the receiver stands -/

/-- The number of rows retired can be read off the inbox. -/
theorem Spooled.unique {κ : Type} {T T' : Store κ} {all : List (Row κ)} {r r' : ℕ}
    (h : Spooled T all r) (h' : Spooled T' all r') (hpending : T'.pending = T.pending) :
    r' = r := by
  have hlen := congrArg List.length hpending
  rw [h.pending, h'.pending, List.length_drop, List.length_drop] at hlen
  have hle := h.le
  have hle' := h'.le
  omega

/-- The local receiver takes the row and does not answer. -/
theorem Delivery.mute {R : RecvRelay} {r : ℕ} (h : Delivery R r) {row : Row Session} {c : LocalConn}
    (hpc : R.deliver = .offered row) (hpeer : R.peer = some c) (hout : c.out ≠ []) :
    Delivery { R with peer := some { c with out := [] } } r := by
  refine h.same rfl rfl rfl h.holding h.got h.current fun c' hc' => ?_
  have hasked := h.asked c hpeer
  rw [hpc] at hasked
  rw [← Option.some.inj hc']
  dsimp only
  rw [hpc]
  rcases hasked with ⟨hreply, -⟩ | ⟨hnil, -⟩
  · exact Or.inl ⟨hreply, List.nil_prefix⟩
  · exact absurd hnil hout

/-- With `r` rows retired, `t` rows are published. -/
structure Feeding (S : Setup) (R : RecvRelay) (backlog : List (List Byte)) (V : State S.cfg)
    (r t : ℕ) : Prop where
  delivery : Delivery R r
  lower : r ≤ t
  upper : t ≤ r + 1
  within : t ≤ R.accepted.length
  /-- Only published rows are acknowledged. -/
  acked : ∀ id, .acked id ∈ R.log → id ≤ t
  books : InStep (S.carried (R.accepted.take t)) (V.solo S.key)
  /-- What is left of old connections is of the row after those retired. -/
  left : ∀ bytes ∈ backlog, bytes = [] ∨
    ∃ row, R.accepted[r]? = some row ∧ bytes <+: localFrames.put (localFrameOf row)
  /-- Nothing is left of them when an answer is on its way. -/
  settled : backlog ≠ [] →
    (∀ c, R.peer = some c → c.reply = []) ∧ ∀ row, R.deliver ≠ .got row

namespace Feeding

variable {S : Setup} {R R' : RecvRelay} {backlog : List (List Byte)} {V : State S.cfg} {r t : ℕ}

/-- A step that leaves the inbox alone, and acknowledges nothing. -/
theorem same (h : Feeding S R backlog V r t) {r' : ℕ} (hdelivery : Delivery R' r')
    (hinbox : R'.inbox = R.inbox) (haccepted : R'.accepted = R.accepted)
    (hlog : ∀ id, .acked id ∈ R'.log → .acked id ∈ R.log)
    (hsettled : backlog ≠ [] →
      (∀ c, R'.peer = some c → c.reply = []) ∧ ∀ row, R'.deliver ≠ .got row) :
    Feeding S R' backlog V r t := by
  have hspooled := hdelivery.spooled
  rw [haccepted] at hspooled
  obtain rfl : r' = r := h.delivery.spooled.unique hspooled (by rw [hinbox])
  refine ⟨hdelivery, h.lower, h.upper, ?_, fun id hid => h.acked id (hlog id hid), ?_, ?_,
    hsettled⟩
  · rw [haccepted]; exact h.within
  · rw [haccepted]; exact h.books
  · rw [haccepted]; exact h.left

/-- Another acknowledgement to the sending relay is due. -/
theorem due (h : Feeding S R backlog V r t) (net : Option (ℕ × BitVec 64)) :
    Feeding S { R with net } backlog V r t := by
  have hdelivery : Delivery { R with net } r :=
    h.delivery.same rfl rfl rfl h.delivery.holding h.delivery.got h.delivery.current
      h.delivery.asked
  exact h.same hdelivery rfl rfl (fun _ hid => hid) h.settled

/-- A row comes in. -/
theorem took (h : Feeding S R backlog V r t) {session : Session} {sequence : ℕ}
    {payload : List Byte} (htake : R.take session sequence payload = .ok R') :
    Feeding S R' backlog V r t := by
  rcases RecvRelay.take_cases htake with ⟨-, rfl⟩ |
    ⟨hsize, -, hroom, inbox, rfl, hpending, hlast, -, -⟩
  · exact h
  refine ⟨h.delivery.append hroom rfl hsize hpending hlast, h.lower, h.upper, ?_, h.acked, ?_, ?_,
    h.settled⟩
  · rw [List.length_append]
    exact h.within.trans (Nat.le_add_right _ _)
  · rw [List.take_append_of_le_length h.within]
    exact h.books
  · intro bytes hbytes
    refine (h.left bytes hbytes).imp_right ?_
    rintro ⟨row, hget, hpre⟩
    exact ⟨row, by rw [List.getElem?_append_left (List.getElem?_eq_some_iff.mp hget).1, hget], hpre⟩

/-- What is on the connection of `deliver` is of the row after those retired. -/
theorem out (h : Feeding S R backlog V r t) {c : LocalConn} (hpeer : R.peer = some c) :
    c.out = [] ∨ ∃ row, R.deliver = .offered row ∧ R.accepted[r]? = some row ∧
      c.out <+: localFrames.put (localFrameOf row) := by
  have hasked := h.delivery.asked c hpeer
  cases hpc : R.deliver with
  | offered row =>
    rw [hpc] at hasked
    have hrow : R.deliver.row? = some row := by rw [hpc]; rfl
    rcases hasked with ⟨-, hpre⟩ | ⟨hnil, -⟩
    · exact Or.inr ⟨row, rfl, (h.delivery.spooled.first (h.delivery.holding row hrow)).1, hpre⟩
    · exact Or.inl hnil
  | fetch | «have» | got =>
    rw [hpc] at hasked
    exact Or.inl hasked.1

/-- The connection is given up: what is on it is read later. -/
theorem abandon (h : Feeding S R backlog V r t) {r' : ℕ} (hdelivery : Delivery R' r')
    (hinbox : R'.inbox = R.inbox) (haccepted : R'.accepted = R.accepted) (hlog : R'.log = R.log)
    (hpeer : R'.peer = none) (hpc : R'.deliver = .fetch) :
    Feeding S R' (match R.peer with | none => backlog | some c => backlog ++ [c.out]) V r t := by
  have hquiet : (∀ c, R'.peer = some c → c.reply = []) ∧ ∀ row, R'.deliver ≠ .got row := by
    refine ⟨fun c hc => ?_, fun row hgot => ?_⟩
    · rw [hpeer] at hc
      cases hc
    · rw [hpc] at hgot
      cases hgot
  have hsame : Feeding S R' backlog V r t :=
    h.same hdelivery hinbox haccepted (fun id hid => hlog ▸ hid) fun _ => hquiet
  cases hR : R.peer with
  | none => exact hsame
  | some c =>
    refine { hsame with left := fun bytes hbytes => ?_, settled := fun _ => hquiet }
    rcases List.mem_append.mp hbytes with hbytes | hbytes
    · exact hsame.left bytes hbytes
    · rw [List.mem_singleton.mp hbytes, haccepted]
      refine (h.out hR).imp_right ?_
      rintro ⟨row, -, hget, hpre⟩
      exact ⟨row, hget, hpre⟩

/-- **`deliver`.** The answers of the receiver are not its own. -/
theorem deliver (h : Feeding S R backlog V r t) {b : DeliverAction} (hb : ∀ byte, b ≠ .answer byte)
    (hfail : b ≠ .fail) (hstep : R.stepDeliver b = some R') :
    ∃ r', Feeding S R' backlog V r' t := by
  obtain ⟨r', hdelivery⟩ := h.delivery.step (RecvRelay.stepDeliver_cases hstep)
  cases b with
  | answer byte => exact absurd rfl (hb byte)
  | fail => exact absurd rfl hfail
  | fetch =>
    simp only [RecvRelay.stepDeliver] at hstep
    split at hstep
    · next hpc _ =>
      cases hstep
      exact ⟨r, h.same hdelivery rfl rfl (fun _ hid => hid) fun hne =>
        ⟨(h.settled hne).1, fun _ => DeliverPc.noConfusion⟩⟩
    · cases hstep
  | connect =>
    simp only [RecvRelay.stepDeliver] at hstep
    split at hstep
    · next hpc _ =>
      cases hstep
      refine ⟨r, h.same hdelivery rfl rfl (fun _ hid => hid) fun hne => ⟨fun c hc => ?_,
        (h.settled hne).2⟩⟩
      rw [← Option.some.inj hc]
    · cases hstep
  | offer =>
    simp only [RecvRelay.stepDeliver] at hstep
    split at hstep
    · next c hpc hpeer =>
      cases hstep
      refine ⟨r, h.same hdelivery rfl rfl (fun id hid => ?_) fun hne => ⟨fun c' hc' => ?_,
        fun _ => DeliverPc.noConfusion⟩⟩
      · simpa using hid
      · rw [← Option.some.inj hc']
        split
        · exact (h.settled hne).1 c hpeer
        · exact (h.settled hne).1 c hpeer
    · cases hstep
  | read =>
    simp only [RecvRelay.stepDeliver] at hstep
    split at hstep
    · next c hpc hpeer =>
      split at hstep
      · next byte rest hreply =>
        split at hstep
        · cases hstep
          -- the answer was on its way, so the backlog is empty
          refine ⟨r, h.same hdelivery rfl rfl (fun _ hid => hid) fun hne => ?_⟩
          have hnil := (h.settled hne).1 c hpeer
          rw [hreply] at hnil
          cases hnil
        · cases hstep
      · cases hstep
    · cases hstep
  | retire =>
    simp only [RecvRelay.stepDeliver] at hstep
    split at hstep
    · next row hpc =>
      cases hstep
      have hrow : R.deliver.row? = some row := by rw [hpc]; rfl
      obtain ⟨-, hid⟩ := h.delivery.spooled.first (h.delivery.holding row hrow)
      have hpublished := h.acked row.id (h.delivery.got row hpc)
      have hnil : backlog = [] := by
        by_contra hne
        exact (h.settled hne).2 row hpc
      have hupper := h.upper
      refine ⟨r + 1, h.delivery.retire hpc, by omega, by omega, h.within, fun id hacked => ?_,
        h.books, fun bytes hbytes => ?_, fun hne => absurd hnil hne⟩
      · exact h.acked id (by simpa using hacked)
      · rw [hnil] at hbytes
        exact absurd hbytes List.not_mem_nil
    · cases hstep
  | cut i j =>
    cases hstep
    refine ⟨r, h.same hdelivery rfl rfl (fun _ hid => hid) fun hne => ⟨fun c' hc' => ?_,
      (h.settled hne).2⟩⟩
    obtain ⟨c, hpeer, rfl⟩ := Option.map_eq_some_iff.mp hc'
    dsimp only
    rw [(h.settled hne).1 c hpeer, List.take_nil]

/-! ### The receiver -/

/-- **The receiver is given the row after those retired.** If it answers with one, the row is
published. -/
theorem fed (h : Feeding S R backlog V r t) {row : Row Session} (hrow : R.accepted[r]? = some row)
    (hknown : S.Known row.payload) (horder : S.carried R.accepted <+: S.messages) (now : ℕ) :
    ∃ t', t ≤ t' ∧ Feeding S R backlog (V.step (.datagram row.payload false now)) r t' ∧
      (V.answers (.datagram row.payload false now) = [true] → r + 1 ≤ t') := by
  have hlt := (List.getElem?_eq_some_iff.mp hrow).1
  have hlower := h.lower
  have hupper := h.upper
  have hnext := S.carried_take_succ hrow
  rcases hknown with hstranger | ⟨m, hm⟩
  · -- another stream: whatever it does, nothing changes here
    have hbooks := h.books.other (e := .datagram row.payload false now) hstranger
    rw [hstranger.message, Option.toList_none, List.append_nil] at hnext
    refine ⟨r + 1, hupper, { h with
      lower := by omega
      upper := le_rfl
      within := hlt
      acked := fun id hid => (h.acked id hid).trans hupper
      books := ?_ }, fun _ => le_rfl⟩
    rcases Nat.lt_or_ge r t with hr | hr
    · obtain rfl : t = r + 1 := by omega
      exact hbooks
    · obtain rfl : t = r := by omega
      rw [hnext]
      exact hbooks
  · obtain ⟨hmem, hpayload⟩ := S.message_some hm
    obtain ⟨hvalid, hkey⟩ := S.valid m hmem
    rw [hm, Option.toList_some] at hnext
    rw [hpayload]
    rcases V.wrapped_cases S.echo S.ack ⟨S.stream_ne, S.epoch_ne⟩ (Wire.bytes m) now with
      ⟨hanswers, hsolo⟩ | ⟨-, hsolo⟩
    · -- its identity is not admitted
      refine ⟨t, le_rfl, { h with books := ?_ }, fun hyes => ?_⟩
      · exact hsolo.symm ▸ h.books
      · exact absurd (hanswers.symm.trans hyes) (List.cons_ne_nil _ _).symm
    · refine ⟨r + 1, hupper, { h with
        lower := by omega
        upper := le_rfl
        within := hlt
        acked := fun id hid => (h.acked id hid).trans hupper
        books := ?_ }, fun _ => le_rfl⟩
      rw [hnext]
      change InStep _ (State.solo S.key (V.step (.datagram (wrap S.key (Wire.bytes m)) false now)))
      rw [hsolo]
      rcases Nat.lt_or_ge r t with hr | hr
      · -- it was published before
        obtain rfl : t = r + 1 := by omega
        have hbooks := h.books
        rw [hnext] at hbooks
        exact hbooks.again S.dedupe hvalid hkey (S.clear m hmem) (by simp) now
      · obtain rfl : t = r := by omega
        refine h.books.fresh S.dedupe hvalid hkey (S.clear m hmem) (S.seq_lt ?_) now
        rw [← hnext]
        exact (S.carried_mono (List.take_prefix _ _)).trans horder

/-- A round of its loop begins. -/
theorem tick (h : Feeding S R backlog V r t) (now : ℕ) :
    Feeding S R backlog (V.step (.tick now)) r t :=
  { h with books := h.books.other fun hkey => by cases hkey }

/-- What the receiver reads is a whole row. -/
theorem read_whole (h : Feeding S R backlog V r t) {row : Row Session}
    (hrow : R.accepted[r]? = some row) {bytes rest payload : List Byte} {size : BitVec 16}
    (hpre : bytes <+: localFrames.put (localFrameOf row))
    (hget : receiverFrames.get bytes = .item (size, payload) rest) :
    payload = row.payload ∧ rest = [] ∧ localFrames.get bytes = .item (size, payload) rest := by
  have hlocal : localFrames.get bytes = .item (size, payload) rest := by
    refine Framing.sized_get_of_stricter _ _ _ (fun header n hn => ?_) hget
    split at hn
    · next hsize =>
      refine (if_pos ⟨hsize.1, hsize.2.trans ?_⟩).trans hn
      decide
    · cases hn
  have hsize := h.delivery.spooled.sized row (List.mem_of_getElem? hrow)
  obtain ⟨hitem, hrest⟩ := localFrames.get_of_prefix (localFrameOf_valid hsize) hpre hlocal
  injection hitem with _ hpayload
  exact ⟨hpayload, hrest, hlocal⟩

/-- **It answers.** -/
theorem answered (h : Feeding S R [] V r t) {row : Row Session} {c : LocalConn} (byte : Byte)
    {item : BitVec 16 × List Byte} {rest : List Byte} (hpc : R.deliver = .offered row)
    (hpeer : R.peer = some c) (hitem : localFrames.get c.out = .item item rest)
    (hyes : byte = 1 → r + 1 ≤ t) :
    Feeding S { R with
      peer := some { c with
        out := rest
        reply := if c.link then c.reply ++ [byte] else c.reply }
      log := if byte = 1 then R.log ++ [.acked row.id] else R.log } [] V r t := by
  have hrow : R.deliver.row? = some row := by rw [hpc]; rfl
  obtain ⟨-, hid⟩ := h.delivery.spooled.first (h.delivery.holding row hrow)
  refine { h with
    delivery := h.delivery.answered byte hpc hpeer hitem
    acked := fun id hacked => ?_
    settled := fun hne => absurd rfl hne }
  dsimp only at hacked
  split at hacked
  · next hone =>
    rcases List.mem_append.mp hacked with hacked | hacked
    · exact h.acked id hacked
    · injection List.mem_singleton.mp hacked with heq
      rw [heq, hid]
      exact hyes hone
  · exact h.acked id hacked

end Feeding

end Durable
end PulseFanout
