import PulseFanout.Shm.Segment

/-!
# Nobody attaches to a ring that is being made

`open` tells by the lock and the size of the file whether a ring can be used: the creator has the
exclusive lock from before the file has a size until all of the ring is initialized, and an
attacher looks at the size with the shared lock. So what an attacher maps is complete, unless its
creator failed or died in between (`attached_to_complete_ring`); that case cannot be told from
outside, and it occurs (`torn_ring_attached`).

`Knows` says for every place of a process what it can rely on. A step of one process changes what
it knows itself; that the others may go on relying on what they know is shown once (`Knows.other`),
from what a process may do to an object (`Inode.Touched`).
-/

namespace PulseFanout
namespace Shm
namespace Segment

open Framework

/-! ### What each process can rely on -/

section Invariant

variable (L : Layout) (roles : ℕ → Role)

/-- The object under construction by `p`. -/
structure Inode.Under (node : Inode) (p : ℕ) : Prop where
  creator : node.creator = p
  ready : node.ready = false
  abandoned : node.abandoned = false

/-- The creator is done with it. -/
def Inode.Over (node : Inode) : Prop := node.ready ∨ node.abandoned

/-- What a process knows of the object it uses, by where it is. -/
def Knows (W : System) (p : ℕ) : Pc → Prop
  | .start | .gone | .dead => True
  | .locking i => i < W.made ∧ W.name = some i ∧ (W.inodes i).Under p ∧ (W.inodes i).size = 0 ∧
      (W.inodes i).memory = {}
  | .sizing i => i < W.made ∧ W.name = some i ∧ (W.inodes i).Under p ∧ (W.inodes i).size = 0 ∧
      (W.inodes i).memory = {} ∧ (W.inodes i).lock.exclusive = some p
  | .mapping i => i < W.made ∧ W.name = some i ∧ (W.inodes i).Under p ∧
      (W.inodes i).size = L.regionSize (roles p).slots ∧ (W.inodes i).memory = {} ∧
      (W.inodes i).lock.exclusive = some p
  | .filling i k => i < W.made ∧ W.name = some i ∧ (W.inodes i).Under p ∧
      (W.inodes i).size = L.regionSize (roles p).slots ∧
      (W.inodes i).memory = .filled L (roles p).slots k ∧ k ≤ fillLength (roles p).slots ∧
      (W.inodes i).lock.exclusive = some p
  | .owner i => i < W.made ∧ W.name = some i ∧ (W.inodes i).creator = p ∧ (W.inodes i).ready
  | .undoing i => i < W.made ∧ W.name = some i ∧ (W.inodes i).creator = p ∧ (W.inodes i).abandoned
  | .unlinked i => i < W.made ∧ (W.inodes i).creator = p ∧ (W.inodes i).Over
  | .waiting i => i < W.made
  | .checking i => i < W.made ∧ p ∈ (W.inodes i).lock.shared
  | .entering i => i < W.made ∧ p ∈ (W.inodes i).lock.shared ∧ (W.inodes i).Over ∧
      (W.inodes i).size = L.regionSize (roles p).slots
  | .joining i => i < W.made ∧ (W.inodes i).Over ∧
      (W.inodes i).size = L.regionSize (roles p).slots
  | .attached i => i < W.made ∧ (W.inodes i).Over ∧
      (W.inodes i).size = L.regionSize (roles p).slots ∧
      (W.inodes i).memory.matches L (roles p).slots
  | .seen i => i < W.made ∧ (W.inodes i).Over

/-- What holds of an object. -/
structure Inode.Sound (node : Inode) : Prop where
  maker : ∃ slots, roles node.creator = .creator slots
  /-- After `ready` all of it is there. -/
  ready : node.ready → node.size = L.regionSize (roles node.creator).slots ∧
    node.memory = .complete L (roles node.creator).slots
  /-- From `ftruncate` to `ready` the creator has the lock. -/
  locked : node.size ≠ 0 → node.Over ∨ node.lock.exclusive = some node.creator

structure Inv (W : System) : Prop where
  knows : ∀ p, Knows L roles W p (W.pcs p)
  sound : ∀ i < W.made, (W.inodes i).Sound L roles
  named : ∀ i, W.name = some i → i < W.made

/-! ### What the others do -/

/-- What process `p` may do to an object: only the creator changes more than the lock, and not once
it is done with it. -/
structure Inode.Touched (p : ℕ) (x y : Inode) : Prop where
  creator : y.creator = x.creator
  lock : x.lock.Keeps p y.lock
  foreign : x.creator ≠ p → y.size = x.size ∧ y.memory = x.memory ∧ y.ready = x.ready ∧
    y.abandoned = x.abandoned
  finished : x.Over → y.Over ∧ y.size = x.size ∧ y.memory = x.memory

theorem Inode.Touched.refl (p : ℕ) (x : Inode) : Inode.Touched p x x :=
  ⟨rfl, .refl p _, fun _ => ⟨rfl, rfl, rfl, rfl⟩, fun h => ⟨h, rfl, rfl⟩⟩

/-- Only the lock changes. -/
theorem Inode.Touched.locked {p : ℕ} {x : Inode} {lock : FileLock ℕ} (h : x.lock.Keeps p lock) :
    Inode.Touched p x { x with lock } :=
  ⟨rfl, h, fun _ => ⟨rfl, rfl, rfl, rfl⟩, fun hover => ⟨hover, rfl, rfl⟩⟩

variable {L roles} {W W' : System} {p q : ℕ}

theorem Inode.Under.not_over {node : Inode} (h : node.Under p) : ¬ node.Over := by
  rintro (hready | habandoned)
  · rw [h.ready] at hready
    cases hready
  · rw [h.abandoned] at habandoned
    cases habandoned

theorem Inode.Under.touched {x y : Inode} (h : x.Under q) (hne : q ≠ p) (ht : x.Touched p y) :
    y.Under q ∧ y.size = x.size ∧ y.memory = x.memory := by
  obtain ⟨hsize, hmemory, hready, habandoned⟩ :=
    ht.foreign fun heq => hne (h.creator.symm.trans heq)
  exact ⟨⟨ht.creator.trans h.creator, hready.trans h.ready, habandoned.trans h.abandoned⟩, hsize,
    hmemory⟩

/-- **The others** do not disturb what a process relies on. -/
theorem Knows.other (h : Knows L roles W q (W.pcs q)) (hne : q ≠ p) (hpc : W'.pcs q = W.pcs q)
    (hmade : W.made ≤ W'.made) (htouched : ∀ i < W.made, (W.inodes i).Touched p (W'.inodes i))
    (hname : ∀ i < W.made, W.name = some i → (W.inodes i).creator ≠ p → W'.name = some i) :
    Knows L roles W' q (W'.pcs q) := by
  rw [hpc]
  generalize W.pcs q = pc at h ⊢
  -- what is under construction by `q`
  have hunder : ∀ {i}, i < W.made → W.name = some i → (W.inodes i).Under q →
      i < W'.made ∧ W'.name = some i ∧ (W'.inodes i).Under q ∧
        (W'.inodes i).size = (W.inodes i).size ∧ (W'.inodes i).memory = (W.inodes i).memory := by
    intro i hi hn hu
    refine ⟨hi.trans_le hmade, hname i hi hn fun heq => hne (hu.creator.symm.trans heq), ?_⟩
    exact hu.touched hne (htouched i hi)
  have hlocked : ∀ {i}, i < W.made → (W.inodes i).lock.exclusive = some q →
      (W'.inodes i).lock.exclusive = some q := fun hi hl =>
    (htouched _ hi).lock.exclusive q hne hl
  cases pc with
  | start | gone | dead => trivial
  | locking i =>
    obtain ⟨hi, hn, hu, hsize, hmem⟩ := h
    obtain ⟨hi', hn', hu', hs, hm⟩ := hunder hi hn hu
    exact ⟨hi', hn', hu', hs.trans hsize, hm.trans hmem⟩
  | sizing i =>
    obtain ⟨hi, hn, hu, hsize, hmem, hl⟩ := h
    obtain ⟨hi', hn', hu', hs, hm⟩ := hunder hi hn hu
    exact ⟨hi', hn', hu', hs.trans hsize, hm.trans hmem, hlocked hi hl⟩
  | mapping i =>
    obtain ⟨hi, hn, hu, hsize, hmem, hl⟩ := h
    obtain ⟨hi', hn', hu', hs, hm⟩ := hunder hi hn hu
    exact ⟨hi', hn', hu', hs.trans hsize, hm.trans hmem, hlocked hi hl⟩
  | filling i k =>
    obtain ⟨hi, hn, hu, hsize, hmem, hk, hl⟩ := h
    obtain ⟨hi', hn', hu', hs, hm⟩ := hunder hi hn hu
    exact ⟨hi', hn', hu', hs.trans hsize, hm.trans hmem, hk, hlocked hi hl⟩
  | owner i =>
    obtain ⟨hi, hn, hc, hready⟩ := h
    have hcp : (W.inodes i).creator ≠ p := fun heq => hne (hc.symm.trans heq)
    obtain ⟨-, -, hr, -⟩ := (htouched i hi).foreign hcp
    exact ⟨hi.trans_le hmade, hname i hi hn hcp, (htouched i hi).creator.trans hc, hr ▸ hready⟩
  | undoing i =>
    obtain ⟨hi, hn, hc, habandoned⟩ := h
    have hcp : (W.inodes i).creator ≠ p := fun heq => hne (hc.symm.trans heq)
    obtain ⟨-, -, -, ha⟩ := (htouched i hi).foreign hcp
    exact ⟨hi.trans_le hmade, hname i hi hn hcp, (htouched i hi).creator.trans hc, ha ▸ habandoned⟩
  | unlinked i =>
    obtain ⟨hi, hc, hover⟩ := h
    exact ⟨hi.trans_le hmade, (htouched i hi).creator.trans hc, ((htouched i hi).finished hover).1⟩
  | waiting i => exact lt_of_lt_of_le h hmade
  | checking i => exact ⟨h.1.trans_le hmade, (htouched i h.1).lock.shared q hne h.2⟩
  | entering i =>
    obtain ⟨hi, hl, hover, hsize⟩ := h
    obtain ⟨hover', hs, -⟩ := (htouched i hi).finished hover
    exact ⟨hi.trans_le hmade, (htouched i hi).lock.shared q hne hl, hover', hs.trans hsize⟩
  | joining i =>
    obtain ⟨hi, hover, hsize⟩ := h
    obtain ⟨hover', hs, -⟩ := (htouched i hi).finished hover
    exact ⟨hi.trans_le hmade, hover', hs.trans hsize⟩
  | attached i =>
    obtain ⟨hi, hover, hsize, hmatches⟩ := h
    obtain ⟨hover', hs, hm⟩ := (htouched i hi).finished hover
    exact ⟨hi.trans_le hmade, hover', hs.trans hsize, hm ▸ hmatches⟩
  | seen i => exact ⟨h.1.trans_le hmade, ((htouched i h.1).finished h.2).1⟩

namespace Inv

/-- A process moves and touches no object; the name stays, or it was that of its own. -/
theorem setPc (h : Inv L roles W) {pc : Pc} {name : Option ℕ}
    (hname : name = W.name ∨ name = none ∧ ∃ i, W.name = some i ∧ (W.inodes i).creator = p)
    (hknows : Knows L roles { W.setPc p pc with name } p pc) :
    Inv L roles { W.setPc p pc with name } where
  knows := fun q => by
    by_cases hqp : q = p
    · subst hqp
      have hpc : ({ W.setPc q pc with name } : System).pcs q = pc := Function.update_self ..
      rw [hpc]
      exact hknows
    · refine (h.knows q).other hqp (Function.update_of_ne hqp ..) le_rfl
        (fun i _ => .refl p _) fun i hi hn hne => ?_
      rcases hname with heq | ⟨-, j, hj, hcreator⟩
      · exact heq.trans hn
      · obtain rfl : i = j := Option.some.inj (hn.symm.trans hj)
        exact absurd hcreator hne
  sound := h.sound
  named := fun i hi => by
    rcases hname with heq | ⟨hnone, -⟩
    · exact h.named i (heq ▸ hi)
    · exact absurd (hnone.symm.trans hi) (Option.some_ne_none i).symm

/-- A process moves and touches the object it uses. -/
theorem move (h : Inv L roles W) {i : ℕ} {pc : Pc} {node : Inode} {name : Option ℕ}
    (hname : name = W.name ∨ name = none ∧ ∃ i, W.name = some i ∧ (W.inodes i).creator = p)
    (htouched : (W.inodes i).Touched p node) (hsound : node.Sound L roles)
    (hknows : Knows L roles { W.move p i pc node with name } p pc) :
    Inv L roles { W.move p i pc node with name } := by
  have hnodes : ∀ j, ({ W.move p i pc node with name } : System).inodes j =
      if j = i then node else W.inodes j := fun j => Function.update_apply ..
  refine ⟨fun q => ?_, fun j hj => ?_, fun j hj => ?_⟩
  · by_cases hqp : q = p
    · subst hqp
      have hpc : ({ W.move q i pc node with name } : System).pcs q = pc := Function.update_self ..
      rw [hpc]
      exact hknows
    · refine (h.knows q).other hqp (Function.update_of_ne hqp ..) le_rfl
        (fun j _ => ?_) fun j hj hn hne => ?_
      · rw [hnodes]
        split
        · next heq => exact heq ▸ htouched
        · exact .refl p _
      · rcases hname with heq | ⟨-, k, hk, hcreator⟩
        · exact heq.trans hn
        · obtain rfl : j = k := Option.some.inj (hn.symm.trans hk)
          exact absurd hcreator hne
  · rw [hnodes]
    split
    · exact hsound
    · exact h.sound j hj
  · rcases hname with heq | ⟨hnone, -⟩
    · exact h.named j (heq ▸ hj)
    · exact absurd (hnone.symm.trans hj) (Option.some_ne_none j).symm

/-- `O_CREAT | O_EXCL`. -/
theorem created (h : Inv L roles W) {slots : ℕ} (hrole : roles p = .creator slots)
    (hname : W.name = none) :
    Inv L roles { W.move p W.made (.locking W.made) { creator := p } with
      name := some W.made
      made := W.made + 1 } := by
  have hnodes : ∀ j, (W.move p W.made (.locking W.made) { creator := p }).inodes j =
      if j = W.made then { creator := p } else W.inodes j := fun j => Function.update_apply ..
  refine ⟨fun q => ?_, fun j hj => ?_, fun j hj => ?_⟩
  · by_cases hqp : q = p
    · subst hqp
      have hpc : (W.move q W.made (.locking W.made) { creator := q }).pcs q = .locking W.made :=
        Function.update_self ..
      dsimp only
      rw [hpc]
      refine ⟨Nat.lt_succ_self _, rfl, ?_⟩
      dsimp only
      rw [hnodes, if_pos rfl]
      exact ⟨⟨rfl, rfl, rfl⟩, rfl, rfl⟩
    · refine (h.knows q).other hqp (Function.update_of_ne hqp ..) (Nat.le_succ _)
        (fun j hj => ?_) fun j _ hn _ => ?_
      · dsimp only
        rw [hnodes, if_neg hj.ne]
        exact .refl p _
      · rw [hname] at hn
        cases hn
  · dsimp only
    rw [hnodes]
    split
    · refine ⟨⟨slots, hrole⟩, fun hready => ?_, fun hsize => absurd rfl hsize⟩
      cases hready
    · next hne => exact h.sound j (lt_of_le_of_ne (Nat.le_of_lt_succ hj) hne)
  · rw [← Option.some.inj hj]
    exact Nat.lt_succ_self _

end Inv

/-! ### Every step -/

/-- A sharer gives its lock back: the object was not under construction. -/
theorem Inode.Sound.release {node : Inode} (h : node.Sound L roles)
    (hfree : node.Over ∨ p ∈ node.lock.shared) :
    Inode.Sound L roles { node with lock := node.lock.release p } := by
  refine ⟨h.maker, h.ready, fun hsize => Or.inl ?_⟩
  rcases hfree with hover | hshared
  · exact hover
  · refine (h.locked hsize).resolve_right fun hlock => ?_
    rw [FileLock.exclusive_eq_none hshared] at hlock
    cases hlock

namespace Inv

/-- The file is closed, or its lock given back. -/
theorem unlock (h : Inv L roles W) {i : ℕ} (hi : i < W.made) {pc : Pc}
    (hfree : (W.inodes i).Over ∨ p ∈ (W.inodes i).lock.shared)
    (hknows : Knows L roles (W.unlock p i pc) p pc) : Inv L roles (W.unlock p i pc) :=
  h.move (Or.inl rfl) (.locked (FileLock.release_keeps _ _)) ((h.sound i hi).release hfree) hknows

/-- The creator fails or dies. -/
theorem abandon (h : Inv L roles W) {i : ℕ} (hi : i < W.made) {pc : Pc}
    (hunder : (W.inodes i).Under p) (hknows : Knows L roles (W.abandon p i pc) p pc) :
    Inv L roles (W.abandon p i pc) := by
  refine h.move (Or.inl rfl) ⟨rfl, FileLock.release_keeps _ _, fun hne => ?_, fun hover => ?_⟩
    ⟨(h.sound i hi).maker, fun hready => ?_, fun _ => Or.inl (Or.inr rfl)⟩ hknows
  · exact absurd hunder.creator hne
  · exact absurd hover hunder.not_over
  · exact absurd (Or.inl hready) hunder.not_over

/-- The creator goes on with the construction. -/
theorem build (h : Inv L roles W) {i : ℕ} (hi : i < W.made) (hunder : (W.inodes i).Under p)
    (hlock : (W.inodes i).lock.exclusive = some p) {pc : Pc} (size : ℕ) (memory : Memory)
    (hknows : Knows L roles (W.move p i pc { W.inodes i with size, memory }) p pc) :
    Inv L roles (W.move p i pc { W.inodes i with size, memory }) := by
  refine h.move (Or.inl rfl) ⟨rfl, .refl p _, fun hne => ?_, fun hover => ?_⟩
    ⟨(h.sound i hi).maker, fun hready => ?_, fun _ => Or.inr ?_⟩ hknows
  · exact absurd hunder.creator hne
  · exact absurd hover hunder.not_over
  · exact absurd (Or.inl hready) hunder.not_over
  · exact hlock.trans (congrArg some hunder.creator.symm)

/-- **`ready`**: the last store has been made. -/
theorem readied (h : Inv L roles W) {i : ℕ} (hi : i < W.made) (hn : W.name = some i)
    (hunder : (W.inodes i).Under p) (hsize : (W.inodes i).size = L.regionSize (roles p).slots)
    (hmemory : (W.inodes i).memory = .complete L (roles p).slots) :
    Inv L roles (W.move p i (.owner i)
      { W.inodes i with lock := (W.inodes i).lock.release p, ready := true }) := by
  have hmine := hunder.creator
  refine h.move (Or.inl rfl) ⟨rfl, FileLock.release_keeps _ _, fun hne => ?_, fun hover => ?_⟩
    ⟨(h.sound i hi).maker, fun _ => ?_, fun _ => Or.inl (Or.inl rfl)⟩ ?_
  · exact absurd hmine hne
  · exact absurd hover hunder.not_over
  · dsimp only
    rw [hmine]
    exact ⟨hsize, hmemory⟩
  · simp only [Knows, System.inodes_move]
    exact ⟨hi, hn, hmine, trivial⟩

/-- **The next step** of any process. -/
theorem next (h : Inv L roles W) (hstep : W.next L (roles p) p = some W') : Inv L roles W' := by
  have hknows := h.knows p
  unfold System.next at hstep
  cases hpc : W.pcs p with
  | seen i | gone | dead =>
    rw [hpc] at hstep
    cases hstep
  | start =>
    simp only [hpc] at hstep
    split at hstep
    · cases hstep
      exact h.setPc (Or.inl rfl) trivial
    · next hrole hname =>
      cases hstep
      exact h.created hrole hname
    · obtain ⟨i, hname, rfl⟩ := Option.map_eq_some_iff.mp hstep
      exact h.setPc (Or.inl rfl) (h.named i hname)
  | locking i =>
    simp only [hpc] at hstep
    rw [hpc] at hknows
    obtain ⟨hi, hn, hunder, hsize, hmem⟩ := hknows
    obtain ⟨lock, hlock, rfl⟩ := Option.map_eq_some_iff.mp hstep
    obtain ⟨hmine, hkeeps⟩ := FileLock.tryExclusive_spec hlock
    have hsound := h.sound i hi
    refine h.move (Or.inl rfl) (.locked hkeeps)
      ⟨hsound.maker, hsound.ready, fun hne => absurd hsize hne⟩ ?_
    simp only [Knows, System.inodes_move]
    exact ⟨hi, hn, ⟨hunder.creator, hunder.ready, hunder.abandoned⟩, hsize, hmem, hmine⟩
  | sizing i =>
    simp only [hpc] at hstep
    rw [hpc] at hknows
    obtain ⟨hi, hn, hunder, -, hmem, hlock⟩ := hknows
    cases hstep
    refine h.build hi hunder hlock _ _ ?_
    simp only [Knows, System.inodes_move]
    exact ⟨hi, hn, ⟨hunder.creator, hunder.ready, hunder.abandoned⟩, trivial, hmem, hlock⟩
  | mapping i =>
    simp only [hpc] at hstep
    rw [hpc] at hknows
    obtain ⟨hi, hn, hunder, hsize, hmem, hlock⟩ := hknows
    cases hstep
    exact h.setPc (Or.inl rfl) ⟨hi, hn, hunder, hsize, hmem, Nat.zero_le _, hlock⟩
  | filling i k =>
    simp only [hpc] at hstep
    rw [hpc] at hknows
    obtain ⟨hi, hn, hunder, hsize, hmem, hle, hlock⟩ := hknows
    split at hstep
    · next hk =>
      cases hstep
      refine h.build hi hunder hlock _ _ ?_
      simp only [Knows, System.inodes_move]
      refine ⟨hi, hn, ⟨hunder.creator, hunder.ready, hunder.abandoned⟩, hsize, ?_, hk, hlock⟩
      rw [hmem, Memory.filled_succ]
    · next hk =>
      cases hstep
      obtain rfl : k = fillLength (roles p).slots := Nat.le_antisymm hle (Nat.le_of_not_lt hk)
      exact h.readied hi hn hunder hsize (hmem.trans (Memory.filled_all _ _))
  | owner i =>
    simp only [hpc] at hstep
    rw [hpc] at hknows
    obtain ⟨hi, hn, hmine, hready⟩ := hknows
    cases hstep
    exact h.setPc (Or.inr ⟨rfl, i, hn, hmine⟩) ⟨hi, hmine, Or.inl hready⟩
  | undoing i =>
    simp only [hpc] at hstep
    rw [hpc] at hknows
    obtain ⟨hi, hn, hmine, -⟩ := hknows
    cases hstep
    exact h.setPc (Or.inr ⟨rfl, i, hn, hmine⟩) trivial
  | unlinked i =>
    simp only [hpc] at hstep
    rw [hpc] at hknows
    obtain ⟨hi, -, hover⟩ := hknows
    cases hstep
    exact h.unlock hi (Or.inl hover) trivial
  | waiting i =>
    simp only [hpc] at hstep
    rw [hpc] at hknows
    split at hstep
    · next lock hlock =>
      cases hstep
      obtain ⟨hfree, hshared, hkeeps⟩ := FileLock.tryShared_spec hlock
      have hsound := h.sound i hknows
      refine h.move (Or.inl rfl) (.locked hkeeps)
        ⟨hsound.maker, hsound.ready, fun hne => Or.inl ?_⟩ ?_
      · refine (hsound.locked hne).resolve_right fun hlocked => ?_
        rw [hfree] at hlocked
        cases hlocked
      · simp only [Knows, System.inodes_move]
        exact ⟨hknows, hshared⟩
    · split at hstep
      · cases hstep
        exact h.setPc (Or.inl rfl) trivial
      · cases hstep
  | checking i =>
    simp only [hpc] at hstep
    rw [hpc] at hknows
    obtain ⟨hi, hshared⟩ := hknows
    -- nobody has the exclusive lock, so an object with a size is not under construction
    have hover : (W.inodes i).size ≠ 0 → (W.inodes i).Over := fun hne => by
      refine ((h.sound i hi).locked hne).resolve_right fun hlock => ?_
      rw [FileLock.exclusive_eq_none hshared] at hlock
      cases hlock
    split at hstep
    · next slots hrole =>
      split at hstep
      · cases hstep
        refine h.unlock hi (Or.inr hshared) ?_
        exact hi
      next hne =>
      split at hstep
      · cases hstep
        exact h.unlock hi (Or.inr hshared) trivial
      · next hsize =>
        cases hstep
        refine h.setPc (Or.inl rfl) ⟨hi, hshared, hover hne, ?_⟩
        rw [hrole]
        exact not_not.mp hsize
    · cases hstep
      refine h.unlock hi (Or.inr hshared) ?_
      split
      · trivial
      · next hne =>
        simp only [Knows, System.unlock, System.inodes_move]
        exact ⟨hi, hover hne⟩
  | entering i =>
    simp only [hpc] at hstep
    rw [hpc] at hknows
    obtain ⟨hi, -, hover, hsize⟩ := hknows
    cases hstep
    refine h.unlock hi (Or.inl hover) ?_
    simp only [Knows, System.unlock, System.inodes_move]
    exact ⟨hi, hover, hsize⟩
  | joining i =>
    simp only [hpc] at hstep
    rw [hpc] at hknows
    cases hstep
    refine h.setPc (Or.inl rfl) ?_
    split
    · next hmatches => exact ⟨hknows.1, hknows.2.1, hknows.2.2, hmatches⟩
    · trivial
  | attached i =>
    simp only [hpc] at hstep
    cases hstep
    exact h.setPc (Or.inl rfl) trivial

/-- **A process throws.** -/
theorem fail (h : Inv L roles W) (hstep : W.fail p = some W') : Inv L roles W' := by
  have hknows := h.knows p
  unfold System.fail at hstep
  cases hpc : W.pcs p with
  | undoing i | unlinked i | seen i | gone | dead =>
    rw [hpc] at hstep
    cases hstep
  | start | waiting i | joining i | attached i =>
    simp only [hpc] at hstep
    cases hstep
    exact h.setPc (Or.inl rfl) trivial
  | locking i | sizing i | mapping i =>
    simp only [hpc] at hstep
    rw [hpc] at hknows
    cases hstep
    refine h.abandon hknows.1 hknows.2.2.1 ?_
    simp only [Knows, System.abandon, System.inodes_move]
    exact ⟨hknows.1, hknows.2.1, hknows.2.2.1.creator, trivial⟩
  | filling i k =>
    simp only [hpc] at hstep
    rw [hpc] at hknows
    obtain ⟨hi, hn, hunder, -⟩ := hknows
    cases hstep
    refine h.move (Or.inr ⟨rfl, i, hn, hunder.creator⟩)
      ⟨rfl, .refl p _, fun hne => absurd hunder.creator hne,
        fun hover => absurd hover hunder.not_over⟩
      ⟨(h.sound i hi).maker, fun hready => absurd (Or.inl hready) hunder.not_over,
        fun _ => Or.inl (Or.inr rfl)⟩ ?_
    simp only [Knows, System.inodes_move]
    exact ⟨hi, hunder.creator, Or.inr rfl⟩
  | owner i =>
    simp only [hpc] at hstep
    rw [hpc] at hknows
    obtain ⟨hi, hn, hmine, hready⟩ := hknows
    cases hstep
    exact h.setPc (Or.inr ⟨rfl, i, hn, hmine⟩) ⟨hi, hmine, Or.inl hready⟩
  | checking i =>
    simp only [hpc] at hstep
    rw [hpc] at hknows
    cases hstep
    exact h.unlock hknows.1 (Or.inr hknows.2) trivial
  | entering i =>
    simp only [hpc] at hstep
    rw [hpc] at hknows
    cases hstep
    exact h.unlock hknows.1 (Or.inr hknows.2.1) trivial

/-- **A process dies.** -/
theorem kill (h : Inv L roles W) (hstep : W.kill p = some W') : Inv L roles W' := by
  have hknows := h.knows p
  unfold System.kill at hstep
  cases hpc : W.pcs p with
  | locking i | sizing i | mapping i | filling i k =>
    simp only [hpc] at hstep
    rw [hpc] at hknows
    cases hstep
    exact h.abandon hknows.1 hknows.2.2.1 trivial
  | unlinked i =>
    simp only [hpc] at hstep
    rw [hpc] at hknows
    cases hstep
    exact h.unlock hknows.1 (Or.inl hknows.2.2) trivial
  | checking i =>
    simp only [hpc] at hstep
    rw [hpc] at hknows
    cases hstep
    exact h.unlock hknows.1 (Or.inr hknows.2) trivial
  | entering i =>
    simp only [hpc] at hstep
    rw [hpc] at hknows
    cases hstep
    exact h.unlock hknows.1 (Or.inr hknows.2.1) trivial
  | start | owner i | undoing i | waiting i | joining i | attached i | seen i | gone | dead =>
    simp only [hpc] at hstep
    cases hstep
    exact h.setPc (Or.inl rfl) trivial

/-- **Every run.** -/
theorem reachable (h : (segment L roles).Reachable W) : Inv L roles W := by
  have hstart : Inv L roles (segment L roles).start :=
    ⟨fun _ => trivial, fun i hi => absurd hi (Nat.not_lt_zero i), fun i hi => by cases hi⟩
  refine h.invariant hstart fun {W a W'} hinv hstep => ?_
  obtain ⟨p, a⟩ := a
  cases a with
  | next => exact hinv.next hstep
  | fail => exact hinv.fail hstep
  | kill => exact hinv.kill hstep

end Inv

end Invariant

/-! ### The guarantee -/

/-- The process has the name to itself: it has made the object and not yet given the name back. -/
def Pc.owns? : Pc → Option ℕ
  | .locking i | .sizing i | .mapping i | .filling i _ | .owner i | .undoing i => some i
  | _ => none

/-- The object has all that a ring of `slots` slots needs. -/
structure Inode.Complete (L : Layout) (slots : ℕ) (node : Inode) : Prop where
  size : node.size = L.regionSize slots
  memory : node.memory = .complete L slots

theorem Layout.regionSize_inj (L : Layout) {m n : ℕ} (h : L.regionSize m = L.regionSize n) :
    m = n :=
  Nat.eq_of_mul_eq_mul_right L.slot_pos (Nat.add_left_cancel h)

/-- **Whoever gets in finds a complete ring.** Any number of processes create the segment, open it,
wait for it, fail and die, in any order. In every state they can reach,

* a process that has attached has mapped an object of the size it expects, with the header it
  expects, and all of the ring is initialized, unless the creator had failed or died before `ready`;
* the same holds of what `wait_ring` has seen, for the size that its creator gave it;
* whoever has made the object and not yet unlinked it has the name: what it unlinks is its own, and
  there is at most one such process. -/
theorem attached_to_complete_ring {L : Layout} {roles : ℕ → Role} {W : System}
    (h : (segment L roles).Reachable W) :
    (∀ p i, W.pcs p = .attached i →
      ((W.inodes i).size = L.regionSize (roles p).slots ∧
        (W.inodes i).memory.matches L (roles p).slots) ∧
      ((W.inodes i).Complete L (roles p).slots ∨ (W.inodes i).abandoned)) ∧
    (∀ p i, W.pcs p = .seen i →
      (W.inodes i).Complete L (roles (W.inodes i).creator).slots ∨ (W.inodes i).abandoned) ∧
    (∀ p i, (W.pcs p).owns? = some i → W.name = some i ∧ (W.inodes i).creator = p) ∧
    ∀ p q, (W.pcs p).owns?.isSome → (W.pcs q).owns?.isSome → p = q := by
  have hinv := Inv.reachable h
  have howns : ∀ p i, (W.pcs p).owns? = some i → W.name = some i ∧ (W.inodes i).creator = p := by
    intro p i hp
    have hknows := hinv.knows p
    generalize W.pcs p = pc at hp hknows
    cases pc with
    | start | unlinked | waiting | checking | entering | joining | attached | seen | gone | dead =>
      cases hp
    | locking | sizing | mapping | filling =>
      cases hp
      exact ⟨hknows.2.1, hknows.2.2.1.creator⟩
    | owner | undoing =>
      cases hp
      exact ⟨hknows.2.1, hknows.2.2.1⟩
  refine ⟨fun p i hp => ?_, fun p i hp => ?_, howns, fun p q hp hq => ?_⟩
  · have hknows := hinv.knows p
    rw [hp] at hknows
    obtain ⟨hi, hover, hsize, hmatches⟩ := hknows
    refine ⟨⟨hsize, hmatches⟩, hover.imp_left fun hready => ?_⟩
    -- the sizes agree, so the numbers of slots do
    obtain ⟨hsize', hmemory⟩ := (hinv.sound i hi).ready hready
    rw [← L.regionSize_inj (hsize'.symm.trans hsize)]
    exact ⟨hsize', hmemory⟩
  · have hknows := hinv.knows p
    rw [hp] at hknows
    refine hknows.2.imp_left fun hready => ?_
    obtain ⟨hsize, hmemory⟩ := (hinv.sound i hknows.1).ready hready
    exact ⟨hsize, hmemory⟩
  · obtain ⟨i, hi⟩ := Option.isSome_iff_exists.mp hp
    obtain ⟨j, hj⟩ := Option.isSome_iff_exists.mp hq
    obtain ⟨hname, rfl⟩ := howns p i hi
    obtain ⟨hname', rfl⟩ := howns q j hj
    rw [Option.some.inj (hname.symm.trans hname')]

/-- Sizes for a try. -/
def smallLayout : Layout := ⟨192, 32, by decide, by decide⟩

/-- A creator, an attacher and `wait_ring`. -/
def threeRoles : ℕ → Role
  | 0 => .creator 2
  | 1 => .attacher 2
  | _ => .waiter

/-- The attacher opens the object before it has a size and takes the lock first; the creator has to
try again. -/
def racedOpen : List (ℕ × Action) :=
  [(0, .next), (1, .next), (1, .next), (1, .next)] ++ List.replicate 12 (0, .next) ++
    [(1, .next), (1, .next), (1, .next), (1, .next), (2, .next), (2, .next), (2, .next)]

theorem raced_open_attaches :
    let M := segment smallLayout threeRoles
    ∃ W, M.run M.start racedOpen = some W ∧ W.pcs 1 = .attached 0 ∧ W.pcs 2 = .seen 0 ∧
      (W.inodes 0).abandoned = false ∧ (W.inodes 0).Complete smallLayout 2 := by
  intro M
  have hfacts : (M.run M.start racedOpen).map (fun W => (W.pcs 1, W.pcs 2,
      (W.inodes 0).abandoned)) = some (.attached 0, .seen 0, false) := by decide +kernel
  obtain ⟨W, hrun, heq⟩ := Option.map_eq_some_iff.mp hfacts
  simp only [Prod.mk.injEq] at heq
  obtain ⟨hattached, hseen, habandoned⟩ := heq
  have hreach : M.Reachable W := ⟨_, hrun⟩
  refine ⟨W, hrun, hattached, hseen, habandoned, ?_⟩
  refine ((attached_to_complete_ring hreach).1 1 0 hattached).2.resolve_right fun habandon => ?_
  rw [habandoned] at habandon
  cases habandon

/-- The creator dies when it has made the header and the first slot. -/
def tornOpen : List (ℕ × Action) :=
  List.replicate 11 (0, .next) ++ [(0, .kill)] ++ List.replicate 5 (1, .next)

/-- The other case occurs: the header matches, so that an attacher gets in, and a slot has no
mutex. -/
theorem torn_ring_attached :
    ∃ W, (segment smallLayout threeRoles).Reachable W ∧ W.pcs 1 = .attached 0 ∧
      (W.inodes 0).memory.slots = 1 := by
  have hfacts : ((segment smallLayout threeRoles).run {} tornOpen).map
      (fun W => (W.pcs 1, (W.inodes 0).memory.slots)) = some (.attached 0, 1) := by decide +kernel
  obtain ⟨W, hrun, heq⟩ := Option.map_eq_some_iff.mp hfacts
  injection heq with hattached hslots
  exact ⟨W, ⟨_, hrun⟩, hattached, hslots⟩

end Segment
end Shm
end PulseFanout
