import PulseFanout.Fec.Budget
import PulseFanout.Receiver.Loop

/-!
# The memory budget (`receiver.cpp`, `parse_args`)

Before it starts, the receiver multiplies the number of streams with a figure for what a stream may
need and refuses a configuration above 512 MiB. The share of the FEC decoder in that figure is 1056
bytes for each of the 128 frames of each generation; it has no term for parity shards.

It is a bound all the same (`fec_memory_bounded`): `publish_frame` takes nothing longer than an
order book on the wire, 540 bytes, so that almost all frames are stored in half of what is reserved
for them.
-/

namespace PulseFanout
namespace Receiver

open Framework Msg Multiplex

/-- `c.fec_gens`, after `parse_args`. -/
def Config.gens (cfg : Config) : ℕ := if cfg.fecGens = 0 then 1 else cfg.fecGens

/-- The share of a stream's decoder: `fec_gens*fec::kMaxGeneration*(wire::max_frame+32)`. -/
def Config.fecBudget (cfg : Config) : ℕ := cfg.gens * Fec.kMaxGeneration * (Wire.maxFrame + 32)

/-- The longest frame on the wire. -/
def longestFrame : ℕ := Wire.wireSize .orderBook

variable {cfg : Config}

/-- `publish_frame` takes nothing that `wire::decode` does not. -/
theorem publishFrame_narrow (cfg : Config) (key : Key) :
    Fec.Narrow longestFrame (publishFrame cfg key) := by
  intro frame recovered reason s htaken
  unfold publishFrame at htaken
  split at htaken
  · next hdecode =>
    obtain ⟨m, -, -, -, hlength, -⟩ := Wire.decode_inv hdecode
    rw [hlength]
    cases m.type with
    | trade => decide
    | bbo => decide
    | orderBook => decide
  · cases htaken

/-- **The rule for streams.** What holds of a new stream and is kept by `expire` and by `receive`
holds of every stream at any time. -/
theorem State.forall_streams {P : Stream cfg.dedupeWindow → Prop} (hnew : P (.new cfg.fecGens))
    (hexpire : ∀ s now, P s → P { s with decoder := s.decoder.expire now Fec.Decoder.defaultTtl })
    (hreceive : ∀ key s out payload now, P s → P (receiveStream cfg key s out payload now).2.1)
    (inputs : List Input) :
    ∀ key s, (State.run cfg inputs).streams.find key = some s → P s := by
  induction inputs using List.reverseRecOn with
  | nil =>
    intro key s hfind
    rw [(Registry.find_eq_none _).mpr List.not_mem_nil] at hfind
    cases hfind
  | append_singleton inputs e ih =>
    rw [State.run_concat]
    intro key s hfind
    cases e with
    | tick now =>
      change ((State.run cfg inputs).streams.map _).find key = some s at hfind
      rw [Registry.find_map] at hfind
      obtain ⟨s₀, hs₀, rfl⟩ := Option.map_eq_some_iff.mp hfind
      exact hexpire s₀ now (ih key s₀ hs₀)
    | datagram data truncated now =>
      rcases (State.run cfg inputs).datagram_cases data truncated now with
        ⟨hstreams, -⟩ | ⟨key', payload, s', streams, -, -, hget, hstreams, -⟩
      · rw [hstreams] at hfind
        exact ih key s hfind
      rw [hstreams] at hfind
      obtain ⟨hmem, -, hcases⟩ := Registry.getOrAdd_cases hget
      by_cases hkey : key = key'
      · -- the stream of the datagram, which may be new
        subst hkey
        rw [Registry.find_put _ (Registry.mem_keys_of_find _ hmem), Option.some.injEq] at hfind
        rw [← hfind]
        refine hreceive _ _ _ _ _ ?_
        rcases hcases with ⟨hold, -⟩ | ⟨-, rfl, -⟩
        · exact ih key s' hold
        · exact hnew
      · rw [Registry.find_put_ne _ hkey] at hfind
        rcases hcases with ⟨-, rfl⟩ | ⟨-, -, hsame⟩
        · exact ih key s hfind
        · rw [hsame key hkey] at hfind
          exact ih key s hfind

/-- **The budget is a bound.** Whatever datagrams arrive, with ticks at any time in between, no
stream's decoder ever stores more payload bytes than `parse_args` has accounted for. -/
theorem fec_memory_bounded (cfg : Config) (inputs : List Input) (key : Key)
    (s : Stream cfg.dedupeWindow) (hfind : (State.run cfg inputs).streams.find key = some s) :
    s.decoder.storedBytes ≤ cfg.fecBudget := by
  obtain ⟨hbounded, hgens⟩ := State.forall_streams
    (P := fun s => s.decoder.AllBounded longestFrame ∧ s.decoder.gens = cfg.gens)
    ⟨.new longestFrame cfg.fecGens, rfl⟩
    (fun s now h => ⟨h.1.expire now _, h.2⟩)
    (fun key s out payload now h =>
      ⟨h.1.receive (publishFrame_narrow cfg key) (by decide) payload now _,
        (s.decoder.receive_gens _ payload now _).trans h.2⟩)
    inputs key s hfind
  have hstored := hbounded.storedBytes_le (by decide)
  rw [hgens] at hstored
  calc s.decoder.storedBytes
      ≤ cfg.gens * (Fec.kMaxGeneration * (longestFrame + 2) +
          16 * (Wire.maxFrame - longestFrame) + 16 * (Wire.maxFrame + 2)) := hstored
    _ ≤ cfg.gens * (Fec.kMaxGeneration * (Wire.maxFrame + 32)) :=
        Nat.mul_le_mul_left _ (by decide)
    _ = cfg.fecBudget := (Nat.mul_assoc _ _ _).symm

/-- One of two frames and the parity are stored, and the other frame in the width of the parity. -/
theorem recovered_frame_within_budget :
    let frame := Wire.bytes (.trade Wire.goldenTrade)
    let parity := Fec.Encoder.parityZero [frame, frame] 300
    let inputs : List Input :=
      [.datagram (Multiplex.wrap ⟨11, 12⟩ (Fec.dataDatagram 0 0 2 frame)) false 5, .tick 6,
        .datagram (Multiplex.wrap ⟨11, 12⟩ (Fec.Encoder.parityDatagram 0 0 2 1 0 parity)) false 7]
    ∃ s, (State.run smallConfig inputs).streams.find ⟨11, 12⟩ = some s ∧
      s.decoder.storedBytes = 202 + 302 + 302 ∧
      s.decoder.storedBytes ≤ smallConfig.fecBudget := by
  intro frame parity inputs
  have hbytes : ((State.run smallConfig inputs).streams.find ⟨11, 12⟩).map
      (fun s => s.decoder.storedBytes) = some (202 + 302 + 302) := by decide +kernel
  obtain ⟨s, hfind, hstored⟩ := Option.map_eq_some_iff.mp hbytes
  exact ⟨s, hfind, hstored, fec_memory_bounded smallConfig inputs ⟨11, 12⟩ s hfind⟩

end Receiver
end PulseFanout
