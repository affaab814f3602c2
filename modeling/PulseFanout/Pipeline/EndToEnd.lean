import PulseFanout.Consumer.Report
import PulseFanout.Pipeline.Incoming
import PulseFanout.Pipeline.Outgoing

/-!
# From the sender's ring to the consumer's report

A sender reads messages off its ring and flushes the shards of their generations; a network loses,
repeats and reorders datagrams; a receiver that has other streams as well puts what it recovers on
its own ring; and a consumer reads that ring. `Carried` says what is asked of the network: under the
identity of the sender only datagrams come that it has flushed, of every generation no more are
missing than there is parity, and the decoder has not given up a generation when more of it comes.

The sender's part is `shipped_of_run`, the receiver's is `solo_replays` for the datagrams and
`Schedule.ring_perm` for the ring. Here the first two are put together to a `Schedule`
(`Carried.schedule`), and the report follows from the ring.
-/

namespace PulseFanout
namespace Pipeline

open Framework Msg Multiplex Fec Sender Receiver

/-! ### The network -/

/-- The generation that is named in a datagram. -/
def generationOf (data : Datagram) : BitVec 32 :=
  (readEnvelope (data.drop headerSize)).genId

/-- The datagram of an input, if it has come whole. -/
def whole : Input → Option Datagram
  | .datagram data false _ => some data
  | _ => none

/-- The datagrams that have come whole. -/
def arrived (inputs : List Input) : List Datagram := inputs.filterMap whole

/-- The decoder of the stream holds the generation. -/
def Holding {cfg : Receiver.Config} (R : Receiver.State cfg) (key : Key) (id : BitVec 32) : Prop :=
  match R.streams.find key with
  | some s => s.decoder.Holds id
  | none => False

instance {cfg : Receiver.Config} (R : Receiver.State cfg) (key : Key) (id : BitVec 32) :
    Decidable (Holding R key id) :=
  match h : R.streams.find key with
  | some s => decidable_of_iff (s.decoder.Holds id) (by rw [Holding, h])
  | none => isFalse (by rw [Holding, h]; exact not_false)

/-- What the network, and the time between arrivals, do to the datagrams `flushed` of an
identity. -/
structure Carried (cfg : Receiver.Config) (key : Key) (parity : ℕ) (flushed : List Datagram)
    (inputs : List Input) : Prop where
  /-- Nobody else uses the identity. -/
  genuine : ∀ e ∈ inputs, e.key? = some key → ∀ data ∈ whole e, data ∈ flushed
  /-- Of a generation no more datagrams are lost than it has parity shards. -/
  loss : ∀ data ∈ flushed, (flushed.filter fun other =>
    generationOf other = generationOf data ∧ other ∉ arrived inputs).length ≤ parity
  /-- A generation is neither evicted nor expired between its datagrams. -/
  kept : ∀ i (hi : i < inputs.length), ∀ data ∈ whole inputs[i], data ∈ flushed →
    (∃ earlier ∈ arrived (inputs.take i), earlier ∈ flushed ∧
      generationOf earlier = generationOf data) →
    Holding (Receiver.State.run cfg (inputs.take i)) key (generationOf data)

/-! ### The shards of a sender -/

section Shards

variable {k p : ℕ} {key : Key}

/-- A shard names its generation and its place in it. -/
theorem shard_named (s : Sent k p) {x : ℕ} (hx : x < s.built.shards.length) :
    (readEnvelope (s.built.shards.getD x [])).genId = s.genId ∧
      (readEnvelope (s.built.shards.getD x [])).index.toNat = x := by
  obtain ⟨O, -, -, -, hid, -, hbuilt⟩ := Origin.build_ok s.build_eq
  obtain ⟨hlt, hshard⟩ := Sent.shard_eq hbuilt hx
  rw [hshard]
  exact ⟨(O.shard_genId x).trans hid, O.shard_index hlt⟩

/-- A generation has shards. -/
theorem shards_pos (s : Sent k p) : 0 < s.built.shards.length := by
  obtain ⟨O, -, -, -, -, -, hbuilt⟩ := Origin.build_ok s.build_eq
  rw [← hbuilt, O.shards_length]
  exact Nat.add_pos_left O.n_pos _

theorem generationOf_wrap (key : Key) (x : List Byte) :
    generationOf (wrap key x) = (readEnvelope x).genId := by
  have hdrop : (wrap key x).drop headerSize = x := List.drop_left' (header.put_length _)
  rw [generationOf, hdrop]

theorem generationOf_shard (key : Key) (s : Sent k p) {x : ℕ}
    (hx : x < s.built.shards.length) :
    generationOf (wrap key (s.built.shards.getD x [])) = s.genId := by
  rw [generationOf_wrap, (shard_named s hx).1]

theorem mem_arrived {inputs : List Input} {data : Datagram} :
    data ∈ arrived inputs ↔ ∃ now, Input.datagram data false now ∈ inputs := by
  rw [arrived, List.mem_filterMap]
  constructor
  · rintro ⟨e, he, hdata⟩
    unfold whole at hdata
    split at hdata
    · cases hdata
      exact ⟨_, he⟩
    · cases hdata
  · rintro ⟨now, he⟩
    exact ⟨_, he, rfl⟩

theorem mem_delivered {sent : List (Sent k p)} {events : List (Arrival sent)}
    {g : Fin sent.length} {x : ℕ} :
    x ∈ delivered events g ↔ ∃ x' now, .shard g x' now ∈ events ∧ x'.val = x := by
  rw [delivered, List.mem_filterMap]
  constructor
  · rintro ⟨e, he, hx⟩
    split at hx
    · next g' x' now =>
      split at hx
      · next hg =>
        subst hg
        exact ⟨x', now, he, Option.some.inj hx⟩
      · cases hx
    · cases hx
  · rintro ⟨x', now, he, rfl⟩
    exact ⟨_, he, if_pos rfl⟩

end Shards

namespace Shipped

variable {cfg : Sender.Config} {flushed : List Datagram} {messages : List Native}
  {sent : List (Sent cfg.fecK cfg.fecParity)}

/-- There are no more generations than messages. -/
theorem length_le (h : Shipped cfg flushed messages sent) : sent.length ≤ messages.length := by
  have hlen := congrArg List.length h.frames
  rw [List.length_map, List.length_flatten, List.map_map] at hlen
  rw [← hlen, ← List.length_map (List.length ∘ Sent.frames)]
  refine List.length_le_sum_of_one_le _ fun i hi => ?_
  obtain ⟨s, hs, rfl⟩ := List.mem_map.mp hi
  exact List.length_pos_iff.mpr (h.nonempty s hs)

/-- Their numbers do not come round. -/
theorem id_inj (h : Shipped cfg flushed messages sent) (hfew : messages.length ≤ 2 ^ 32) {g g' : ℕ}
    (hg : g < sent.length) (hg' : g' < sent.length) (heq : sent[g].genId = sent[g'].genId) :
    g = g' := by
  have hlen := h.length_le.trans hfew
  rw [h.ids g hg, h.ids g' hg'] at heq
  have hnat := congrArg BitVec.toNat heq
  rwa [BitVec.toNat_ofNat, BitVec.toNat_ofNat, Nat.mod_eq_of_lt (hg.trans_le hlen),
    Nat.mod_eq_of_lt (hg'.trans_le hlen)] at hnat

theorem nodup_ids (h : Shipped cfg flushed messages sent) (hfew : messages.length ≤ 2 ^ 32) :
    (sent.map Sent.genId).Nodup := by
  refine List.nodup_iff_injective_getElem.mpr fun g g' heq => Fin.ext ?_
  have hlen : (sent.map Sent.genId).length = sent.length := List.length_map _
  dsimp only at heq
  rw [List.getElem_map, List.getElem_map] at heq
  exact h.id_inj hfew (g.isLt.trans_eq hlen) (g'.isLt.trans_eq hlen) heq

theorem mem_flushed (h : Shipped cfg flushed messages sent) {data : Datagram} :
    data ∈ flushed ↔ ∃ (g : Fin sent.length) (x : Fin (sent.get g).built.shards.length),
      data = wrap cfg.key ((sent.get g).built.shards.getD x []) := by
  rw [h.flushed_eq, List.mem_map]
  constructor
  · rintro ⟨shard, hshard, rfl⟩
    obtain ⟨s, hs, hmem⟩ := List.mem_flatMap.mp hshard
    obtain ⟨g, rfl⟩ := List.get_of_mem hs
    obtain ⟨x, hx, rfl⟩ := List.getElem_of_mem hmem
    exact ⟨g, ⟨x, hx⟩, by rw [List.getD_eq_getElem _ _ hx]⟩
  · rintro ⟨g, x, rfl⟩
    refine ⟨_, List.mem_flatMap.mpr ⟨_, List.get_mem _ g, ?_⟩, rfl⟩
    rw [List.getD_eq_getElem _ _ x.isLt]
    exact List.getElem_mem _

/-- Different shards are different datagrams. -/
theorem place_unique (h : Shipped cfg flushed messages sent) (hfew : messages.length ≤ 2 ^ 32)
    {g g' : Fin sent.length} {x : Fin (sent.get g).built.shards.length}
    {x' : Fin (sent.get g').built.shards.length}
    (heq : wrap cfg.key ((sent.get g).built.shards.getD x []) =
      wrap cfg.key ((sent.get g').built.shards.getD x' [])) : g = g' ∧ x.val = x'.val := by
  have hshard := List.append_cancel_left heq
  obtain ⟨hid, hindex⟩ := shard_named (sent.get g) x.isLt
  obtain ⟨hid', hindex'⟩ := shard_named (sent.get g') x'.isLt
  rw [hshard] at hid hindex
  exact ⟨Fin.ext (h.id_inj hfew g.isLt g'.isLt (hid.symm.trans hid')), hindex.symm.trans hindex'⟩

/-- The datagram flushed first is shard zero of generation zero. -/
theorem head_place (h : Shipped cfg flushed messages sent) (hne : messages ≠ []) :
    ∃ (g : Fin sent.length) (x : Fin (sent.get g).built.shards.length), g.val = 0 ∧ x.val = 0 ∧
      flushed.head? = some (wrap cfg.key ((sent.get g).built.shards.getD x [])) := by
  have hframes := h.frames
  have hflushed := h.flushed_eq
  cases sent with
  | nil => exact absurd (List.map_eq_nil_iff.mp hframes.symm) hne
  | cons s rest =>
    have hpos := shards_pos s
    refine ⟨⟨0, Nat.succ_pos _⟩, ⟨0, hpos⟩, rfl, rfl, ?_⟩
    rw [hflushed, List.flatMap_cons, List.head?_map, List.head?_append, List.head?_eq_getElem?,
      List.getElem?_eq_getElem hpos]
    change some _ = some (wrap cfg.key (s.built.shards.getD 0 []))
    rw [List.getD_eq_getElem _ _ hpos]

end Shipped

/-! ### The schedule -/

namespace Carried

variable {scfg : Sender.Config} {rcfg : Receiver.Config} {flushed : List Datagram}
  {messages : List Native} {sent : List (Sent scfg.fecK scfg.fecParity)} {inputs : List Input}

/-- A datagram of the sender comes under its identity. -/
theorem key?_wrap {key : Key} (hkey : key.stream ≠ 0 ∧ key.epoch ≠ 0) (payload : List Byte)
    (now : ℕ) : (Input.datagram (wrap key payload) false now).key? = some key := by
  have hopen : unwrap (wrap key payload) {} = (some payload, key) :=
    unwrap_eq_some.mpr ⟨rfl, hkey⟩
  rw [Input.key?, Input.envelope?, if_neg Bool.false_ne_true, hopen]
  rfl

/-- What `kept` says of an input and those before it. -/
theorem holding {key : Key} {parity : ℕ} (h : Carried rcfg key parity flushed inputs)
    {before after : List Input} {data : Datagram} {now : ℕ}
    (hinputs : inputs = before ++ .datagram data false now :: after) (hdata : data ∈ flushed)
    (hearlier : ∃ earlier ∈ arrived before, earlier ∈ flushed ∧
      generationOf earlier = generationOf data) :
    Holding (Receiver.State.run rcfg before) key (generationOf data) := by
  subst hinputs
  have hlt : before.length < (before ++ Input.datagram data false now :: after).length := by
    rw [List.length_append, List.length_cons]
    omega
  have hkept := h.kept before.length hlt data
  rw [List.take_left, List.getElem_append_right le_rfl] at hkept
  simp only [Nat.sub_self, List.getElem_cons_zero] at hkept
  exact hkept rfl hdata hearlier

variable (hcarried : Carried rcfg scfg.key scfg.fecParity flushed inputs)
  (hshipped : Shipped scfg flushed messages sent)
include hcarried hshipped

theorem genuine_sent : Genuine scfg.key sent inputs := by
  intro data truncated now hmem hkey
  obtain ⟨⟨key, payload⟩, henv, -⟩ := Option.map_eq_some_iff.mp hkey
  obtain rfl := (Input.envelope?_eq_some henv).1
  exact hshipped.mem_flushed.mp (hcarried.genuine _ hmem hkey data rfl)

omit hcarried in
/-- What has come whole is among the events. -/
theorem mem_delivered_of_arrived (hfew : messages.length ≤ 2 ^ 32)
    (hkey : scfg.key.stream ≠ 0 ∧ scfg.key.epoch ≠ 0) {g : Fin sent.length}
    {x : Fin (sent.get g).built.shards.length}
    (h : wrap scfg.key ((sent.get g).built.shards.getD x []) ∈ arrived inputs) :
    x.val ∈ delivered (arrivals scfg.key sent inputs) g := by
  obtain ⟨now, hmem⟩ := mem_arrived.mp h
  obtain ⟨g', x', harrival, hdata⟩ := exists_arrival (key?_wrap hkey _ now) (x := x) rfl
  obtain ⟨rfl, hx⟩ := hshipped.place_unique hfew hdata
  exact mem_delivered.mpr ⟨x', now, List.mem_filterMap.mpr ⟨_, hmem, harrival⟩, hx.symm⟩

/-- A generation loses no more shards than it has parity. -/
theorem loss_le (hfew : messages.length ≤ 2 ^ 32)
    (hkey : scfg.key.stream ≠ 0 ∧ scfg.key.epoch ≠ 0) (g : Fin sent.length) :
    (sent.get g).built.shards.length ≤
      (delivered (arrivals scfg.key sent inputs) g).toFinset.card + scfg.fecParity := by
  let shards := (sent.get g).built.shards
  let data : ℕ → Datagram := fun x => wrap scfg.key (shards.getD x [])
  have hsplit := List.length_eq_length_filter_add (l := List.range shards.length)
    fun x => decide (data x ∈ arrived inputs)
  have hcame : ((List.range shards.length).filter
      fun x => decide (data x ∈ arrived inputs)).length ≤
      (delivered (arrivals scfg.key sent inputs) g).toFinset.card := by
    rw [← List.toFinset_card_of_nodup (List.nodup_range.filter _)]
    refine Finset.card_le_card fun x hx => ?_
    obtain ⟨hrange, harrived⟩ := List.mem_filter.mp (List.mem_toFinset.mp hx)
    exact List.mem_toFinset.mpr (mem_delivered_of_arrived hshipped hfew hkey
      (x := ⟨x, List.mem_range.mp hrange⟩) (of_decide_eq_true harrived))
  have hlost : ((List.range shards.length).filter
      fun x => !decide (data x ∈ arrived inputs)).length ≤ scfg.fecParity := by
    have hdata : (List.range shards.length).map data = shards.map (wrap scfg.key) := by
      refine List.ext_getElem (by simp) fun x hx _ => ?_
      rw [List.length_map, List.length_range] at hx
      rw [List.getElem_map, List.getElem_map, List.getElem_range]
      exact congrArg (wrap scfg.key) (List.getD_eq_getElem _ _ hx)
    have hsub : ((List.range shards.length).map data).Sublist flushed := by
      rw [hdata, hshipped.flushed_eq]
      refine List.Sublist.map _ ?_
      rw [List.flatMap_def]
      exact List.sublist_flatten_of_mem (List.mem_map_of_mem (List.get_mem sent g))
    have hall : ∀ x ∈ List.range shards.length, generationOf (data x) = (sent.get g).genId :=
      fun x hx => generationOf_shard scfg.key _ (List.mem_range.mp hx)
    -- a generation has a shard, which was flushed and names it
    have hpos : 0 < shards.length := shards_pos (sent.get g)
    have hloss := hcarried.loss (data 0) (hshipped.mem_flushed.mpr ⟨g, ⟨0, hpos⟩, rfl⟩)
    rw [hall 0 (List.mem_range.mpr hpos)] at hloss
    refine le_trans ?_ ((hsub.filter _).length_le.trans hloss)
    rw [List.filter_map, List.length_map]
    refine le_of_eq (congrArg _ (List.filter_congr fun x hx => ?_))
    simp [hall x hx]
  rw [List.length_range] at hsplit
  change shards.length ≤ _
  omega

/-- Between two of its shards a generation stays in its slot. -/
theorem kept_holds (hecho : rcfg.echo = false) (hadmitted : Admitted rcfg scfg.key inputs)
    {pre post : List (Arrival sent)} {g : Fin sent.length}
    {x : Fin (sent.get g).built.shards.length} {now : ℕ}
    (hsplit : arrivals scfg.key sent inputs = pre ++ .shard g x now :: post)
    (hcame : delivered pre g ≠ []) :
    (streamRun rcfg scfg.key sent pre).1.decoder.Holds (sent.get g).genId := by
  obtain ⟨before, e, after, hinputs, rfl, harrival⟩ := arrivals_split hsplit
  obtain rfl := arrival_eq_shard harrival
  -- an earlier shard of the generation
  obtain ⟨y, hy⟩ := List.exists_mem_of_ne_nil _ hcame
  obtain ⟨x', now', hmem, -⟩ := mem_delivered.mp hy
  obtain ⟨e', he', harrival'⟩ := List.mem_filterMap.mp hmem
  obtain rfl := arrival_eq_shard harrival'
  have hgen : ∀ y : Fin (sent.get g).built.shards.length,
      generationOf (wrap scfg.key ((sent.get g).built.shards.getD y [])) = (sent.get g).genId :=
    fun y => generationOf_shard scfg.key _ y.isLt
  have hholding := hcarried.holding hinputs (hshipped.mem_flushed.mpr ⟨g, x, rfl⟩)
    ⟨_, mem_arrived.mpr ⟨now', he'⟩, hshipped.mem_flushed.mpr ⟨g, x', rfl⟩,
      (hgen x').trans (hgen x).symm⟩
  rw [hgen x] at hholding
  -- the stream of the receiver is the one that got the events
  have hgenuine : Genuine scfg.key sent before := fun data truncated now hmem =>
    hcarried.genuine_sent hshipped data truncated now (hinputs ▸ List.mem_append_left _ hmem)
  have hreplays : Replays scfg.key (Solo.run rcfg scfg.key before) _ :=
    solo_replays hecho hgenuine
  have hshows : Shows scfg.key (Receiver.State.run rcfg before) (Solo.run rcfg scfg.key before) :=
    shows_run (Admitted.of_append (hinputs ▸ hadmitted))
  have hstream := hreplays.stream
  rw [← hshows.stream] at hstream
  unfold Holding at hholding
  split at hholding
  · next s hfind =>
    rw [hfind] at hstream
    rw [← hstream]
    exact hholding
  · exact absurd hholding not_false

/-- What the stream of the sender gets. -/
def schedule (hecho : rcfg.echo = false) (hkey : scfg.key.stream ≠ 0 ∧ scfg.key.epoch ≠ 0)
    (hseqs : messages.map seqOf = List.range' 1 messages.length)
    (hfits : messages.length ≤ rcfg.dedupeWindow.val)
    (hadmitted : Admitted rcfg scfg.key inputs) :
    Schedule rcfg scfg.key scfg.fecK scfg.fecParity :=
  have hfew : messages.length ≤ 2 ^ 32 := hfits.trans (rcfg.window_le.trans (by decide))
  { messages
    sent
    events := arrivals scfg.key sent inputs
    valid := hshipped.valid
    seqs := hseqs
    split := hshipped.frames
    ids := hshipped.nodup_ids hfew
    reasons := hshipped.reasons
    fits := hfits
    loss := hcarried.loss_le hshipped hfew hkey
    kept := fun _ _ _ _ _ => hcarried.kept_holds hshipped hecho hadmitted }

/-- If the datagram flushed first comes first, the first message is observed first. -/
theorem first_of_head (hecho : rcfg.echo = false)
    (hkey : scfg.key.stream ≠ 0 ∧ scfg.key.epoch ≠ 0)
    (hseqs : messages.map seqOf = List.range' 1 messages.length)
    (hfits : messages.length ≤ rcfg.dedupeWindow.val)
    (hadmitted : Admitted rcfg scfg.key inputs) (hdedupe : rcfg.dedupeEnabled = true)
    (hfirst : ((inputs.find? fun e => e.key? = some scfg.key).bind whole) = flushed.head?)
    (hne : messages ≠ []) :
    (streamRun rcfg scfg.key sent (arrivals scfg.key sent inputs)).2.observed.head? =
      messages.head? := by
  have hfew : messages.length ≤ 2 ^ 32 := hfits.trans (rcfg.window_le.trans (by decide))
  obtain ⟨g, x, hg, hx, hhead⟩ := hshipped.head_place hne
  rw [hhead] at hfirst
  obtain ⟨e, hfind, hwhole⟩ := Option.bind_eq_some_iff.mp hfirst
  obtain ⟨hekey, before, after, hinputs, hbefore⟩ := List.find?_eq_some_iff_append.mp hfind
  obtain ⟨now, rfl⟩ : ∃ now,
      e = .datagram (wrap scfg.key ((sent.get g).built.shards.getD x [])) false now := by
    unfold whole at hwhole
    split at hwhole
    · next data now =>
      cases hwhole
      exact ⟨now, rfl⟩
    · cases hwhole
  obtain ⟨g', x', harrival, hdata⟩ := exists_arrival (key?_wrap hkey _ now) (x := x) rfl
  obtain ⟨rfl, hxx⟩ := hshipped.place_unique hfew hdata
  have hsplit : arrivals scfg.key sent inputs =
      arrivals scfg.key sent before ++ .shard g x' now :: arrivals scfg.key sent after := by
    rw [hinputs, arrivals, List.filterMap_append, List.filterMap_cons_some harrival]
    rfl
  refine (hcarried.schedule hshipped hecho hkey hseqs hfits hadmitted).first_observed hdedupe
    hsplit (fun g' => ?_) hg (hxx.symm.trans hx)
  -- before it no shard has come
  refine List.eq_nil_iff_forall_not_mem.mpr fun y hy => ?_
  obtain ⟨x', now', hmem, -⟩ := mem_delivered.mp hy
  obtain ⟨e', he', harrival'⟩ := List.mem_filterMap.mp hmem
  obtain rfl := arrival_eq_shard harrival'
  have hnot := hbefore _ he'
  rw [key?_wrap hkey, decide_eq_true rfl] at hnot
  cases hnot

/-- **What is on the ring of the receiver.** -/
theorem ring_perm (hecho : rcfg.echo = false) (hkey : scfg.key.stream ≠ 0 ∧ scfg.key.epoch ≠ 0)
    (hseqs : messages.map seqOf = List.range' 1 messages.length)
    (hfits : messages.length ≤ rcfg.dedupeWindow.val)
    (hadmitted : Admitted rcfg scfg.key inputs) (hdedupe : rcfg.dedupeEnabled = true) :
    ∃ j ≤ messages.length - 1,
      (((inputs.find? fun e => e.key? = some scfg.key).bind whole) = flushed.head? → j = 0) ∧
      ((framesOf scfg.key (Receiver.State.run rcfg inputs).out.ring).map Published.frame).Perm
        (messages.drop j) := by
  let S := hcarried.schedule hshipped hecho hkey hseqs hfits hadmitted
  obtain ⟨j, hj, hhead, hperm, hall⟩ := S.ring_perm hdedupe
  have hreplays : Replays scfg.key (Solo.run rcfg scfg.key inputs) _ :=
    solo_replays hecho (hcarried.genuine_sent hshipped)
  have hshows : Shows scfg.key (Receiver.State.run rcfg inputs) (Solo.run rcfg scfg.key inputs) :=
    shows_run hadmitted
  refine ⟨j, hj, fun hfirst => ?_, ?_⟩
  · by_cases hne : messages = []
    · have hzero : j ≤ messages.length - 1 := hj
      rw [hne] at hzero
      exact Nat.le_zero.mp hzero
    · have hobserved := hcarried.first_of_head hshipped hecho hkey hseqs hfits hadmitted hdedupe
        hfirst hne
      have hpos : 0 < messages.length := List.length_pos_iff.mpr hne
      have hlt : j < messages.length := lt_of_le_of_lt hj (Nat.sub_lt hpos Nat.one_pos)
      have hsame : messages[j]? = messages[0]? := by
        rw [← List.head?_eq_getElem?, ← hobserved]
        exact hhead.symm
      rw [List.getElem?_eq_getElem hlt, List.getElem?_eq_getElem hpos] at hsame
      have hnumber := congrArg seqOf (Option.some.inj hsame)
      rw [seqOf_getElem hseqs hlt, seqOf_getElem hseqs hpos] at hnumber
      exact Nat.succ.inj hnumber
  · rw [hshows.ring, ← hreplays.ring]
    rw [← hall] at hperm
    exact hperm

end Carried

/-! ### The report -/

/-- The frame a consumer gets from a read. -/
def frameRead : Consumer.Read → Option Native
  | .ok frame _ => frame
  | _ => none

/-- A consumer that takes all it gets has recorded the frames it was given, in that order. -/
theorem consume_recorded {cfg : Consumer.Config} (hcount : cfg.count = 0) (hskip : cfg.skip = 0)
    {reads : List Consumer.Read} (hidle : .empty true ∉ reads) {C : Consumer.State}
    (hdone : (Consumer.consume cfg reads C).2 = none) :
    (Consumer.consume cfg reads C).1.recorded.map (fun r => (r.identity, r.seqId)) =
      C.recorded.map (fun r => (r.identity, r.seqId)) ++
        (reads.filterMap frameRead).map fun m => (keyOf m, m.header.seqId) := by
  induction reads generalizing C with
  | nil => exact (List.append_nil _).symm
  | cons read reads ih =>
    have hrest : .empty true ∉ reads := fun hmem => hidle (List.mem_cons_of_mem _ hmem)
    unfold Consumer.consume at hdone ⊢
    rw [if_neg fun hstop => hstop.1 hcount] at hdone ⊢
    cases read with
    | ok frame recvTs =>
      cases frame with
      | none => cases hdone
      | some m =>
        dsimp only at hdone ⊢
        split at hdone
        · cases hdone
        next hvalid =>
        rw [if_neg hvalid]
        rw [if_neg (by rw [hskip]; exact Nat.not_lt_zero _)] at hdone ⊢
        cases hrecord : C.record (Consumer.recordOf m recvTs) with
        | none =>
          rw [hrecord] at hdone
          cases hdone
        | some C' =>
          rw [hrecord] at hdone
          dsimp only at hdone ⊢
          have hlast : C'.recorded = C.recorded ++ [Consumer.recordOf m recvTs] := by
            unfold Consumer.State.record at hrecord
            split at hrecord
            · cases hrecord
              rfl
            · cases hrecord
          rw [ih hrest hdone, hlast, List.map_append, List.append_assoc]
          rfl
    | lapped resume => exact ih hrest hdone
    | corrupt => cases hdone
    | empty idle =>
      cases idle with
      | true => exact absurd List.mem_cons_self hidle
      | false => exact ih hrest hdone

/-- The numbers a consumer has recorded of a stream are those of its frames on the ring. -/
theorem seqs_recorded {key : Key} {records : List Consumer.Record} {ring : List Published}
    (h : records.map (fun r => (r.identity, r.seqId)) =
      (ring.map Published.frame).map fun m => (keyOf m, m.header.seqId)) :
    Metrics.seqs (Consumer.ofStream key records) =
      ((framesOf key ring).map Published.frame).map seqOf := by
  have hleft : Metrics.seqs (Consumer.ofStream key records) =
      ((records.map fun r => (r.identity, r.seqId)).filter fun r => r.1 = key).map
        fun r => r.2.toNat := by
    rw [List.filter_map, List.map_map, Metrics.seqs, Consumer.ofStream, List.map_map]
    rfl
  rw [hleft, h, List.map_map, List.filter_map, List.map_map, List.map_map]
  rfl

/-- **Without a gap nothing is reported as dropped.** -/
theorem report_gapless {A : Metrics.Accumulator} {records : List Metrics.Sample} {first count : ℕ}
    (h : Metrics.Summarizes A records)
    (hperm : (Metrics.seqs records).Perm (List.range' first count)) (hpos : 0 < count)
    (hbound : count < 2 ^ 64) :
    A.report.received.toNat = count ∧ A.report.expected.toNat = count ∧
      A.report.dropped.toNat = 0 := by
  have hmem : ∀ n, n ∈ Metrics.seqs records ↔ first ≤ n ∧ n < first + count :=
    fun n => hperm.mem_iff.trans List.mem_range'_1
  have hnodup : (Metrics.seqs records).Nodup := hperm.nodup_iff.mpr List.nodup_range'
  have hlength : (Metrics.seqs records).length = count :=
    hperm.length_eq.trans (List.length_range' ..)
  have hspan : span (Metrics.seqs records) = count := by
    have hleast : IsLeast {n | n ∈ Metrics.seqs records} first :=
      ⟨(hmem _).mpr ⟨le_rfl, by omega⟩, fun n hn => ((hmem n).mp hn).1⟩
    have hgreatest : IsGreatest {n | n ∈ Metrics.seqs records} (first + count - 1) :=
      ⟨(hmem _).mpr ⟨by omega, by omega⟩, fun n hn => by have := ((hmem n).mp hn).2; omega⟩
    rw [span_eq hleast hgreatest]
    omega
  obtain ⟨hreceived, hexpected, hdropped⟩ := h.report_exact hnodup (hspan ▸ hbound)
  have hrecords : records.length = (Metrics.seqs records).length := (List.length_map _).symm
  have hlost := card_lost hnodup
  refine ⟨by rw [hreceived, hrecords, hlength], by rw [hexpected, hspan], ?_⟩
  rw [hdropped]
  omega

/-! ### The whole way -/

/-- **A stream from ring to ring to report.** A sender with FEC has read messages numbered from one
and left its loop. If the network loses of every generation at most as many datagrams as it has
parity shards, and the receiver admits the stream and keeps a generation between its datagrams,
then of this stream the receiver's ring has the messages from some place `j` on, each exactly once
and none else, whatever other streams it serves; `j` is the beginning if the datagram flushed first
is the first to come. A consumer that reads this ring counts them all for the stream, as many as it
expects, and no drop. -/
theorem stream_carried_through {scfg : Sender.Config} {rcfg : Receiver.Config}
    (hcfg : scfg.Unimpaired) (hfec : scfg.fecK ≠ 0)
    (hkey : scfg.key.stream ≠ 0 ∧ scfg.key.epoch ≠ 0) (hecho : rcfg.echo = false)
    (hdedupe : rcfg.dedupeEnabled = true) {env : Env} {start : ℕ} {answers : List ReadAnswer}
    {L : Loop} (hleft : generalPath scfg env start answers = (L, none))
    (hseqs : (L.taken.map fun t => seqOf t.2) = List.range' 1 L.taken.length)
    (hfits : L.taken.length ≤ rcfg.dedupeWindow.val) {inputs : List Input}
    (hcarried : Carried rcfg scfg.key scfg.fecParity L.out.handed.flatten inputs)
    (hadmitted : Admitted rcfg scfg.key inputs) :
    let ring := (Receiver.State.run rcfg inputs).out.ring
    ∃ j ≤ L.taken.length - 1,
      ((inputs.find? fun e => e.key? = some scfg.key).bind whole = L.out.handed.flatten.head? →
        j = 0) ∧
      ((framesOf scfg.key ring).map Published.frame).Perm
        ((L.taken.map (restamped scfg)).drop j) ∧
      ∀ (ccfg : Consumer.Config) (readIndex : ℕ) (reads : List Consumer.Read),
        ccfg.count = 0 → ccfg.skip = 0 → .empty true ∉ reads →
        reads.filterMap frameRead = ring.map Published.frame →
        (Consumer.consume ccfg reads { readIndex := readIndex }).2 = none → L.taken ≠ [] →
        ∃ A, (Consumer.consume ccfg reads { readIndex := readIndex }).1.streamMetrics.find
            scfg.key = some A ∧
          A.report.received.toNat = L.taken.length - j ∧
          A.report.expected.toNat = L.taken.length - j ∧ A.report.dropped.toNat = 0 := by
  intro ring
  obtain ⟨sent, hshipped⟩ := shipped_of_run hcfg hfec hleft
  have hlength : (L.taken.map (restamped scfg)).length = L.taken.length := List.length_map _
  have hseqs' : (L.taken.map (restamped scfg)).map seqOf =
      List.range' 1 (L.taken.map (restamped scfg)).length := by
    rw [hlength, ← hseqs, List.map_map]
    exact List.map_congr_left fun t _ => seqOf_setStream _ _
  obtain ⟨j, hj, hfirst, hperm⟩ := hcarried.ring_perm hshipped hecho hkey hseqs'
    (hlength ▸ hfits) hadmitted hdedupe
  rw [hlength] at hj
  refine ⟨j, hj, hfirst, hperm, ?_⟩
  intro ccfg readIndex reads hcount hskip hidle hreads hdone hne
  have hpos : 0 < L.taken.length := List.length_pos_iff.mpr hne
  have hkept : Consumer.Kept (Consumer.consume ccfg reads { readIndex := readIndex }).1 :=
    Consumer.consume_kept ccfg (.start readIndex)
  have hrecorded := consume_recorded hcount hskip hidle hdone
  rw [hreads, List.map_nil, List.nil_append] at hrecorded
  generalize (Consumer.consume ccfg reads { readIndex := readIndex }).1 = C at hkept hrecorded ⊢
  have hnumbers : (Metrics.seqs (Consumer.ofStream scfg.key C.recorded)).Perm
      (List.range' (1 + j) (L.taken.length - j)) := by
    rw [seqs_recorded hrecorded]
    refine (hperm.map seqOf).trans ?_
    rw [List.map_drop, hseqs', hlength, List.drop_range', Nat.mul_one]
  have hcount : (Consumer.ofStream scfg.key C.recorded).length = L.taken.length - j := by
    have hlen := hnumbers.length_eq
    rw [List.length_range'] at hlen
    exact (List.length_map _).symm.trans hlen
  have hsome : scfg.key ∈ C.recorded.map Consumer.Record.identity := by
    by_contra hnone
    rw [Consumer.ofStream_of_notMem hnone, List.length_nil] at hcount
    omega
  have hsmall : L.taken.length - j < 2 ^ 64 := by
    have hwindow := rcfg.window_le
    omega
  refine ⟨_, hkept.streams _ ((hkept.keys _).mpr hsome), ?_⟩
  exact report_gapless (.recordAll (by omega)) hnumbers (by omega) hsmall

/-- Messages one to three. -/
def oneToThree : List ReadAnswer :=
  [.ok (some (numbered 1)), .ok (some (numbered 2)), .ok (some (numbered 3))]

/-- They are sent in generations of two. -/
def threeSent : Loop := (generalPath Sender.pairs Sender.smooth 0 oneToThree).1

/-- Of the messages two and three the parity comes only, among ticks and a datagram of another
stream. -/
def lossy : List Input :=
  let flushed := threeSent.out.handed.flatten
  [.datagram (flushed.getD 0 []) false 5, .tick 6, .datagram (flushed.getD 2 []) false 7,
    .datagram (wrap ⟨11, 13⟩ [1, 2, 3]) false 8, .datagram (flushed.getD 4 []) false 9]

theorem threeSent_left :
    generalPath Sender.pairs Sender.smooth 0 oneToThree = (threeSent, none) := by
  have hexit : (generalPath Sender.pairs Sender.smooth 0 oneToThree).2 = none := by
    decide +kernel
  rw [threeSent, ← hexit]

theorem lossy_carried :
    Carried smallConfig Sender.pairs.key Sender.pairs.fecParity threeSent.out.handed.flatten
      lossy where
  genuine := by decide +kernel
  loss := by decide +kernel
  kept := by decide +kernel

/-- All three messages are on the ring. -/
theorem lossy_stream_complete :
    (((framesOf ⟨11, 12⟩ (Receiver.State.run smallConfig lossy).out.ring).map
      Published.frame).map seqOf).Perm [1, 2, 3] := by
  obtain ⟨j, -, hfirst, hperm, -⟩ := stream_carried_through ⟨rfl, rfl⟩ (by decide)
    ⟨by decide, by decide⟩ rfl rfl threeSent_left (by decide +kernel) (by decide +kernel)
    lossy_carried (by decide +kernel)
  rw [hfirst (by decide +kernel), List.drop_zero] at hperm
  have hsent : (threeSent.taken.map (restamped Sender.pairs)).map seqOf = [1, 2, 3] := by
    decide +kernel
  rw [← hsent]
  exact hperm.map seqOf

end Pipeline
end PulseFanout
