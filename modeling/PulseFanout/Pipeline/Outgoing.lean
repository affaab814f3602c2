import PulseFanout.Fec.Erasure
import PulseFanout.Receiver.Loop
import PulseFanout.Sender.Generations

/-!
# What a sender leaves to the network

A run of the FEC path that leaves its loop has flushed the shards of complete generations, as
`Framed` has kept along it. Here they are brought into the form in which the receiver's side speaks
of them: a list of generations the encoder has built (`Sent`), with distinct ids, closed for the
reasons zero to two, whose frames are the encodings of valid messages of the stream (`Shipped`,
`shipped_of_run`).
-/

namespace PulseFanout

/-! ### Closed generations -/

namespace Fec

/-- The place of a shard is in its envelope. -/
theorem Origin.shard_index (O : Origin) {x : ℕ} (hx : x < O.n + O.p) :
    (readEnvelope (O.shard x)).index.toNat = x := by
  rw [Origin.shard]
  split
  · next hdata =>
    rw [O.dataShard_eq, readEnvelope_append]
    exact (O.dataEnvelope_toNat hdata).1
  · next hparity =>
    rw [O.parityShard_eq, readEnvelope_append, (O.parityEnvelope_toNat (by omega)).1]
    omega

/-- Encoders that have taken the same frames are the same. -/
theorem Encoder.eq_of_frames {E E' : Encoder} (hk : E.k = E'.k)
    (hp : E.parityCount = E'.parityCount) (hframes : E.frames = E'.frames) : E = E' := by
  have hmax : E.maxLen = E'.maxLen := by rw [E.maxLen_eq, E'.maxLen_eq, hframes]
  cases E
  cases E'
  cases hk
  cases hp
  cases hframes
  cases hmax
  rfl

/-- A closed generation is one that `build` builds of its frames. -/
theorem Origin.build_eq (O : Origin) :
    Encoder.build O.encoder.k O.p O.encoder.frames O.genId O.reason = .ok O.built := by
  obtain ⟨built, hbuilt⟩ := Origin.exists_build O.encoder.k_range O.encoder.parity_range
    ⟨O.n_pos, O.n_le⟩ O.encoder.frame_range O.genId O.reason
  obtain ⟨O', hk, hp, hframes, hid, hreason, heq⟩ := Origin.build_ok hbuilt
  have hO : O' = O := by
    obtain ⟨E, id, reason, hne⟩ := O
    obtain ⟨E', id', reason', hne'⟩ := O'
    obtain rfl : E' = E := Encoder.eq_of_frames hk hp hframes
    cases hid
    cases hreason
    rfl
  rw [hO] at heq
  rw [heq]
  exact hbuilt

end Fec

namespace Pipeline

open Framework Msg Multiplex Fec Sender

/-! ### Messages -/

/-- The message a frame off the ring is sent as. -/
def restamped (cfg : Sender.Config) (t : ℕ × Native) : Native := setStream cfg.key t.2

theorem keyOf_setStream (key : Key) (m : Native) : Receiver.keyOf (setStream key m) = key := by
  cases m with
  | trade m => rfl
  | bbo m => rfl
  | orderBook m => rfl

theorem seqOf_setStream (key : Key) (m : Native) :
    Receiver.seqOf (setStream key m) = Receiver.seqOf m := by
  cases m with
  | trade m => rfl
  | bbo m => rfl
  | orderBook m => rfl

/-! ### The generations -/

/-- A generation of the sender. -/
def ship {cfg : Sender.Config} (O : Origin) (h : O.encoder.k = cfg.fecK ∧ O.p = cfg.fecParity) :
    Sent cfg.fecK cfg.fecParity where
  frames := O.encoder.frames
  genId := O.genId
  reason := O.reason
  built := O.built
  build_eq := by
    rw [← h.1, ← h.2]
    exact O.build_eq

/-- What was flushed are the shards of `sent`, in which `messages` are. -/
structure Shipped (cfg : Sender.Config) (flushed : List Datagram) (messages : List Native)
    (sent : List (Sent cfg.fecK cfg.fecParity)) : Prop where
  flushed_eq : flushed = (sent.flatMap fun s => s.built.shards).map (wrap cfg.key)
  frames : (sent.map Sent.frames).flatten = messages.map Wire.bytes
  ids : ∀ g (hg : g < sent.length), sent[g].genId = BitVec.ofNat 32 g
  reasons : ∀ s ∈ sent, s.reason.toNat ≤ 2
  nonempty : ∀ s ∈ sent, s.frames ≠ []
  valid : ∀ m ∈ messages,
    validateFrame m.header m.size = true ∧ Receiver.keyOf m = cfg.key

/-- **What a run has shipped.** -/
theorem shipped_of_run {cfg : Sender.Config} {env : Env} {start : ℕ} {answers : List ReadAnswer}
    {L : Loop} (hcfg : cfg.Unimpaired) (hfec : cfg.fecK ≠ 0)
    (hdone : generalPath cfg env start answers = (L, none)) :
    ∃ sent, Shipped cfg L.out.handed.flatten (L.taken.map (restamped cfg)) sent := by
  obtain ⟨-, gens, hframed, hflushed, hsplit⟩ := generalPath_framed hcfg hfec hdone
  have hnumbered : ∀ O ∈ gens, ∃ g, Numbered cfg g O := by
    intro O hO
    obtain ⟨g, hg⟩ := List.mem_iff_getElem?.mp hO
    exact ⟨g, hframed.numbered g O hg⟩
  have hshape : ∀ O ∈ gens, O.encoder.k = cfg.fecK ∧ O.p = cfg.fecParity := by
    intro O hO
    obtain ⟨g, hg⟩ := hnumbered O hO
    exact ⟨hg.k, hg.parity⟩
  refine ⟨gens.pmap ship hshape, ?_, ?_, fun g hg => ?_, fun s hs => ?_, fun s hs => ?_, ?_⟩
  · have hshards : (gens.pmap ship hshape).map (fun s => s.built.shards) =
        gens.map fun O => O.built.shards := by
      simp only [List.map_pmap, ship, List.pmap_eq_map]
    rw [List.flatMap_def, hshards, ← List.flatMap_def]
    exact hflushed
  · have hframes : (gens.pmap ship hshape).map Sent.frames =
        gens.map fun O => O.encoder.frames := by
      simp only [List.map_pmap, ship, List.pmap_eq_map]
    rw [hframes, List.map_map, ← List.flatMap_def]
    exact hsplit
  · rw [List.getElem_pmap]
    rw [List.length_pmap] at hg
    exact (hframed.numbered g _ (List.getElem?_eq_getElem hg)).genId
  · obtain ⟨O, hO, rfl⟩ := List.mem_pmap.mp hs
    obtain ⟨g, hg⟩ := hnumbered O hO
    exact hg.reason
  · obtain ⟨O, hO, rfl⟩ := List.mem_pmap.mp hs
    exact O.nonempty
  · intro m hm
    obtain ⟨t, ht, rfl⟩ := List.mem_map.mp hm
    exact ⟨hframed.valid t ht, keyOf_setStream _ _⟩

end Pipeline
end PulseFanout
