import Mathlib.Order.Basic

/-!
# Bounded samples (`samples.h`)

The latency statistics keep at most `kSampleLimit` values: once the vector is full a value
replaces one at a pseudo-random place, or none.
-/

namespace PulseFanout
namespace Metrics

/-- `kSampleLimit` -/
def kSampleLimit : ℕ := 65536

/-- The 64-bit mixing function that picks the place. -/
def mix (seen : BitVec 64) : BitVec 64 :=
  let x := seen + 0x9e3779b97f4a7c15#64
  let x := (x ^^^ (x >>> 30)) * 0xbf58476d1ce4e5b9#64
  let x := (x ^^^ (x >>> 27)) * 0x94d049bb133111eb#64
  x ^^^ (x >>> 31)

/-- `sample` -/
def sample (values : List ℕ) (value seen : ℕ) : List ℕ :=
  if values.length < kSampleLimit then values ++ [value]
  else
    let index := (mix (BitVec.ofNat 64 seen)).toNat % seen
    if index < values.length then values.set index value else values

/-- The vector never outgrows the limit. -/
theorem sample_length_le {values : List ℕ} (value seen : ℕ) (h : values.length ≤ kSampleLimit) :
    (sample values value seen).length ≤ kSampleLimit := by
  unfold sample
  split
  · next hlt =>
    rw [List.length_append, List.length_singleton]
    exact hlt
  · dsimp only
    split
    · rw [List.length_set]; exact h
    · exact h

end Metrics
end PulseFanout
