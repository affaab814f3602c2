import Mathlib.Data.Finset.Insert
import Mathlib.Data.List.Infix
import PulseFanout.Framework.Codec
import PulseFanout.Framework.Search

/-!
# When a service is ready (`supervise_services.py`, `drain`)

The supervisor reads what its services print, in chunks as `os.read` returns them, and takes a
service to be ready once its needle has been printed. Between two chunks it keeps of each service
the line it is in the middle of, and of that the last 65536 bytes.

`drainOne` is the body of the loop over the selector's keys, for one service and one chunk. What is
kept retains every beginning of the needle (`Framework.Retains`): a needle has no newline but at its
end, and is no longer than what is kept. So the service is in `ready` exactly if the needle occurs
in what it has printed so far, however that was cut (`ready_iff_printed`).
-/

namespace PulseFanout
namespace Supervise

open Framework

/-- `b"\n"` -/
def newline : Byte := 10#8

/-- The length of the tail that is kept. -/
def keepBytes : ℕ := 65536

/-- A service of the configuration; `ready` is its needle, encoded. -/
structure Service where
  name : String
  ready : Option (List Byte)

/-- What `run` checks of the configuration. -/
structure Config where
  services : List Service
  size : 1 ≤ services.length ∧ services.length ≤ 64
  /-- Service names are unique. -/
  unique : (services.map Service.name).Nodup

/-- `buffers` and `ready`, and the lines printed. -/
structure State where
  buffers : String → List Byte := fun _ => []
  ready : Finset String := ∅
  printed : List (String × List Byte) := []

/-- `needle and needle.encode() in text` -/
def found (needle : Option (List Byte)) (text : List Byte) : Bool :=
  match needle with
  | none => false
  | some needle => needle ≠ [] ∧ needle <:+: text

/-- The body of the loop of `drain`; an empty chunk is the end of the output. -/
def drainOne (service : Service) (chunk : List Byte) (S : State) : State :=
  if chunk = [] then S
  else
    let text := S.buffers service.name ++ chunk
    let lines := text.splitOn newline
    { buffers := Function.update S.buffers service.name ((lines.getLastD []).rtake keepBytes)
      ready := if found service.ready text then insert service.name S.ready else S.ready
      printed := S.printed ++ lines.dropLast.map fun line => (service.name, line) }

/-- A chunk `os.read` returns for one of the services. -/
structure Chunk (cfg : Config) where
  service : Service
  mem : service ∈ cfg.services
  bytes : List Byte
  size : bytes.length ≤ 4096

variable {cfg : Config}

/-- The calls of `drain`. -/
def drain (chunks : List (Chunk cfg)) : State :=
  chunks.foldl (fun S chunk => drainOne chunk.service chunk.bytes S) {}

/-- What was read of a service. -/
def output (name : String) (chunks : List (Chunk cfg)) : List Byte :=
  (chunks.filter fun chunk => chunk.service.name = name).flatMap Chunk.bytes

theorem drain_concat (chunks : List (Chunk cfg)) (chunk : Chunk cfg) :
    drain (chunks ++ [chunk]) = drainOne chunk.service chunk.bytes (drain chunks) := by
  rw [drain, List.foldl_append]
  rfl

theorem output_concat (name : String) (chunks : List (Chunk cfg)) (chunk : Chunk cfg) :
    output name (chunks ++ [chunk]) =
      output name chunks ++ if chunk.service.name = name then chunk.bytes else [] := by
  rw [output, List.filter_append, List.flatMap_append, ← output, List.filter_singleton]
  by_cases h : chunk.service.name = name
  · rw [decide_eq_true h, if_pos h, cond_true, List.flatMap_singleton]
  · rw [decide_eq_false h, if_neg h, cond_false, List.flatMap_nil]

/-- A name belongs to one service. -/
theorem Config.service_eq (cfg : Config) {s t : Service} (hs : s ∈ cfg.services)
    (ht : t ∈ cfg.services) (hname : s.name = t.name) : s = t :=
  List.inj_on_of_nodup_map cfg.unique hs ht hname

/-- Where the supervisor stands with one service that has printed `past`. -/
structure Follows (service : Service) (needle past : List Byte) (S : State) : Prop where
  retains : Retains needle (S.buffers service.name) past
  ready : service.name ∈ S.ready ↔ needle <:+: past
  bound : (S.buffers service.name).length ≤ keepBytes

section Needle

variable {service : Service} {needle past : List Byte} {S : State}

/-- A chunk of another service. -/
theorem Follows.other (h : Follows service needle past S) {other : Service}
    (hname : other.name ≠ service.name) (chunk : List Byte) :
    Follows service needle past (drainOne other chunk S) := by
  unfold drainOne
  split
  · exact h
  · have hbuffer : ∀ kept, Function.update S.buffers other.name kept service.name =
        S.buffers service.name := fun kept => Function.update_of_ne (Ne.symm hname) kept S.buffers
    refine ⟨?_, ?_, ?_⟩
    · dsimp only
      rw [hbuffer]
      exact h.retains
    · rw [← h.ready]
      dsimp only
      split
      · rw [Finset.mem_insert]
        exact or_iff_right (Ne.symm hname)
      · exact Iff.rfl
    · dsimp only
      rw [hbuffer]
      exact h.bound

/-- **A chunk of the service itself.** -/
theorem Follows.own (h : Follows service needle past S) (hservice : service.ready = some needle)
    (hne : needle ≠ []) (hlen : needle.length ≤ keepBytes) (hline : newline ∉ needle.dropLast)
    (chunk : List Byte) : Follows service needle (past ++ chunk) (drainOne service chunk S) := by
  unfold drainOne
  split
  · next hempty =>
    rw [hempty, List.append_nil]
    exact h
  · refine ⟨?_, ?_, ?_⟩
    · -- the text retains the beginnings, and so do its last line and the tail of that
      dsimp only
      rw [Function.update_self]
      exact ((h.retains.append chunk).lastPiece hline).rtake hlen
    · rw [← h.retains.infix_iff chunk, ← h.ready, hservice]
      dsimp only
      split
      · next hfound =>
        have hhere := (of_decide_eq_true hfound).2
        exact iff_of_true (Finset.mem_insert_self _ _) (.inr hhere)
      · next hfound =>
        refine (or_iff_left fun hhere => hfound ?_).symm
        exact decide_eq_true ⟨hne, hhere⟩
    · dsimp only
      rw [Function.update_self, List.rtake, List.length_drop]
      omega

end Needle

/-- **Readiness does not depend on how output is cut.** After any number of chunks, of this service
and of the others, the service is in `ready` if and only if its needle occurs in what was read of
it, and what is kept of it is within the bound. -/
theorem ready_iff_printed (cfg : Config) {service : Service} (hmem : service ∈ cfg.services)
    {needle : List Byte} (hservice : service.ready = some needle) (hne : needle ≠ [])
    (hlen : needle.length ≤ 65536) (hline : newline ∉ needle.dropLast)
    (chunks : List (Chunk cfg)) :
    (service.name ∈ (drain chunks).ready ↔ needle <:+: output service.name chunks) ∧
      ((drain chunks).buffers service.name).length ≤ 65536 := by
  suffices h : Follows service needle (output service.name chunks) (drain chunks) from
    ⟨h.ready, h.bound⟩
  induction chunks using List.reverseRecOn with
  | nil =>
    refine ⟨.nil, ?_, Nat.zero_le _⟩
    exact iff_of_false (Finset.notMem_empty _) fun hin => hne (List.infix_nil.mp hin)
  | append_singleton chunks chunk ih =>
    rw [drain_concat, output_concat]
    split
    · next hname =>
      rw [cfg.service_eq chunk.mem hmem hname]
      exact ih.own hservice hne hlen hline chunk.bytes
    · next hname =>
      rw [List.append_nil]
      exact ih.other hname chunk.bytes

/-- A relay that is ready once it prints the line `READY`. -/
def relay : Service := ⟨"relay", some [82#8, 69#8, 65#8, 68#8, 89#8, newline]⟩

def sender : Service := ⟨"sender", none⟩

def relays : Config where
  services := [relay, sender]
  size := by decide
  unique := by decide

/-- `READY` in two chunks, after another line, with a chunk of the sender between. -/
def cutInside : List (Chunk relays) :=
  [⟨relay, List.mem_cons_self, [97#8, newline, 82#8, 69#8], by decide⟩,
   ⟨sender, List.mem_cons_of_mem _ List.mem_cons_self, [82#8, newline], by decide⟩,
   ⟨relay, List.mem_cons_self, [65#8, 68#8, 89#8, newline, 98#8], by decide⟩]

theorem needle_cut_inside_found : relay.name ∈ (drain cutInside).ready :=
  have hprinted : [82#8, 69#8, 65#8, 68#8, 89#8, newline] <:+: output relay.name cutInside := by
    decide +kernel
  (ready_iff_printed relays List.mem_cons_self rfl (by decide) (by decide) (by decide)
    cutInside).1.mpr hprinted

end Supervise
end PulseFanout
