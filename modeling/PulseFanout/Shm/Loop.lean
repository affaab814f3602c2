import PulseFanout.Shm.Integrity
import PulseFanout.Shm.Registry

/-!
# The loops that read a ring (`consumer.cpp`, `sender.cpp`)

The consumer and the sender read a ring in the same way: `read_index` begins at zero or, with
`--from-edge`, at `live_edge()`; a frame moves it on by one, and `kLapped` sends it to the index
that `read` names. `World` is a ring with such a loop behind every reader.

The writer does not see `read_index`. It sees the `cursor`, which `attach` sets to zero and which
only a successful `read` moves. So a reader that has just been sent somewhere, and has nothing to
read there yet, looks to the writer as if it had read nothing. For a reader that was lapped that
does not last, because there is always a frame to read where `kLapped` has sent it. Once a frame
has been published after the place where a reader began, its cursor is its position
(`Follows.cursor`).
-/

namespace PulseFanout
namespace Shm

open Framework

/-! ### The loop -/

/-- The variables of a loop. -/
structure Client where
  /-- `read_index`, from where it is set to where the loop ends. -/
  readIndex : Option ℕ := none
  lappedEvents : ℕ := 0
  /-- Kept by the sender only. -/
  skippedMessages : ℕ := 0
  /-- History: what `read_index` was set to first. -/
  origin : ℕ := 0
  /-- History: where the loop has begun, or was last sent by `kLapped`. -/
  start : ℕ := 0

namespace Client

/-- `read_index` is set. -/
def begin (c : Client) (index : ℕ) : Client :=
  { c with readIndex := some index, origin := index, start := index }

/-- The rest of the round after a call of `read`. -/
def after (c : Client) : FrameStatus → Client
  | .ok _ => { c with readIndex := c.readIndex.map next }
  | .lapped resume =>
    { c with
      readIndex := some resume
      lappedEvents := c.lappedEvents + 1
      skippedMessages := match c.readIndex with
        | some index => if resume > index then c.skippedMessages + (resume - index)
          else c.skippedMessages
        | none => c.skippedMessages
      start := resume }
  -- the process ends
  | .corrupt => { c with readIndex := none }
  | .empty => c

end Client

/-- A ring and the loops behind its readers. -/
structure World where
  ring : State := {}
  clients : ℕ → Client := fun _ => {}

/-- What can happen. -/
inductive Move
  | writer (a : WriterAction)
  | reader (r : ℕ) (a : ReaderAction)
  /-- `read_index=cfg.from_edge?ring.live_edge():0` -/
  | begin (r : ℕ) (fromEdge : Bool)

namespace World

variable (S : World)

/-- How far reader `r` has read: a frame is read once it is copied and the cursor stored. -/
def position (r : ℕ) : Option ℕ :=
  match (S.ring.handles r).pc with
  | .stored index _ => some (next index)
  | _ => (S.clients r).readIndex

/-- What a step of reader `r` means to its loop: a result of `read` is acted upon. Of a process
that dies there remains how far it had read. -/
def advanced (r : ℕ) (ring : State) : Client :=
  match (ring.handles r).pc with
  | .dead => { S.clients r with readIndex := S.position r }
  | _ => ((ring.handles r).returns.drop (S.ring.handles r).returns.length).foldl
    (fun c e => c.after e.2) (S.clients r)

def moved (r : ℕ) (ring : State) : World where
  ring
  clients := Function.update S.clients r (S.advanced r ring)

/-- One step. A loop asks for nothing but its `read_index`. -/
def step (cfg : Config) : Move → Option World
  | .writer a => (S.ring.stepWriter cfg a).map fun ring => { S with ring }
  | .reader r a => (S.ring.stepReader cfg r a).bind fun ring =>
    if (ring.handles r).pc.index?.all fun index => (S.clients r).readIndex = some index then
      some (S.moved r ring)
    else none
  | .begin r fromEdge =>
    match (S.ring.handles r).pc, (S.clients r).readIndex, (S.ring.handles r).returns with
    | .idle, none, [] =>
      some { S with
        clients := Function.update S.clients r
          ((S.clients r).begin (if fromEdge then S.ring.writeIndex else 0)) }
    | _, _, _ => none

end World

/-- A new ring, its writer, and readers in their loops. -/
def loops (cfg : Config) : Machine World Move where
  start := {}
  step S m := S.step cfg m

/-! ### The steps, one by one -/

/-- What a step can be. -/
inductive Moved (cfg : Config) (S : World) : World → Prop
  | writer {ring : State} (hstep : WriterStep cfg S.ring ring) : Moved cfg S { S with ring }
  | reader {r : ℕ} {ring : State} (hstep : ReaderStep cfg S.ring r ring)
    (hcall : ∀ index, (ring.handles r).pc.index? = some index →
      (S.clients r).readIndex = some index) :
    Moved cfg S (S.moved r ring)
  | begin {r : ℕ} (fromEdge : Bool) (hpc : (S.ring.handles r).pc = .idle)
    (hnew : (S.clients r).readIndex = none) (hreturns : (S.ring.handles r).returns = []) :
    Moved cfg S { S with
      clients := Function.update S.clients r
        ((S.clients r).begin (if fromEdge then S.ring.writeIndex else 0)) }

variable {cfg : Config} {S S' : World} {r : ℕ}

theorem loops_cases {m : Move} (h : (loops cfg).step S m = some S') : Moved cfg S S' := by
  change S.step cfg m = some S' at h
  cases m with
  | writer a =>
    obtain ⟨ring, hstep, rfl⟩ := Option.map_eq_some_iff.mp h
    exact .writer (State.stepWriter_cases hstep)
  | reader r a =>
    obtain ⟨ring, hstep, hguard⟩ := Option.bind_eq_some_iff.mp h
    split at hguard
    · next hall =>
      cases hguard
      refine .reader (State.stepReader_cases hstep) fun index hindex => ?_
      rw [hindex] at hall
      exact of_decide_eq_true hall
    · cases hguard
  | begin r fromEdge =>
    simp only [World.step] at h
    split at h
    · next hpc hnew hreturns =>
      cases h
      exact .begin fromEdge hpc hnew hreturns
    · cases h

/-- The ring of a world moves as a ring does. -/
theorem World.ring_reachable (h : (loops cfg).Reachable S) :
    (Shm.ring cfg).Reachable S.ring := by
  have hstart : (Shm.ring cfg).Reachable (loops cfg).start.ring := ⟨[], rfl⟩
  refine h.invariant (P := fun S => (Shm.ring cfg).Reachable S.ring) hstart ?_
  intro S m S' hreach hstep
  change S.step cfg m = some S' at hstep
  cases m with
  | writer a =>
    obtain ⟨W, hmove, rfl⟩ := Option.map_eq_some_iff.mp hstep
    exact hreach.leads (.step (a := .writer a) hmove (.refl _))
  | reader r a =>
    obtain ⟨W, hmove, hguard⟩ := Option.bind_eq_some_iff.mp hstep
    split at hguard
    · cases hguard
      exact hreach.leads (.step (a := .reader r a) hmove (.refl _))
    · cases hguard
  | begin r fromEdge =>
    simp only [World.step] at hstep
    split at hstep
    · cases hstep
      exact hreach
    · cases hstep

/-! ### What a step of a reader means to its loop -/

namespace World

@[simp] theorem clients_moved (r : ℕ) (ring : State) :
    (S.moved r ring).clients r = S.advanced r ring :=
  Function.update_self ..

theorem clients_moved_of_ne {q : ℕ} (h : q ≠ r) (ring : State) :
    (S.moved r ring).clients q = S.clients q :=
  Function.update_of_ne h ..

/-- No call has returned. -/
theorem advanced_still {ring : State} (hlive : (ring.handles r).pc ≠ .dead)
    (hreturns : (ring.handles r).returns = (S.ring.handles r).returns) :
    S.advanced r ring = S.clients r := by
  unfold advanced
  split
  · next hdead => exact absurd hdead hlive
  · rw [hreturns, List.drop_length]
    rfl

/-- A call has returned. -/
theorem advanced_return {ring : State} {index : ℕ} {status : FrameStatus}
    (hself : ring.handles r = (S.ring.handles r).return index status) :
    S.advanced r ring = (S.clients r).after status := by
  unfold advanced
  rw [hself]
  change List.foldl _ _ (((S.ring.handles r).returns ++ [(index, status)]).drop _) = _
  rw [List.drop_left]
  rfl

/-- The process dies. -/
theorem advanced_dead {ring : State} (hdead : (ring.handles r).pc = .dead) :
    S.advanced r ring = { S.clients r with readIndex := S.position r } := by
  rw [advanced, hdead]

end World

/-! ### Positions and cursors -/

/-- The loop, the calls of `read` and the cursor go together. -/
structure Follows (S : World) (r : ℕ) : Prop where
  unset : ¬ (S.ring.handles r).pc.Settled → (S.clients r).readIndex = none
  call : ∀ index, (S.ring.handles r).pc.index? = some index →
    (S.clients r).readIndex = some index
  /-- The cursor of a reader that has read something since it started. -/
  cursor : ∀ i n, (S.ring.handles r).reader = some i → S.position r = some n →
    n ≠ (S.clients r).start → (S.ring.readers i).cursor = n

namespace Follows

theorem start : Follows (loops cfg).start r where
  unset := fun _ => rfl
  call := nofun
  cursor := nofun

/-- A step that leaves the reader's handle, entry and loop alone. -/
theorem congr (h : Follows S r) (hhandle : S'.ring.handles r = S.ring.handles r)
    (hclient : S'.clients r = S.clients r)
    (hentry : ∀ i, (S.ring.handles r).reader = some i → S'.ring.readers i = S.ring.readers i) :
    Follows S' r := by
  refine ⟨?_, ?_, fun i n hreader hposition hne => ?_⟩
  · rw [hhandle, hclient]
    exact h.unset
  · rw [hhandle, hclient]
    exact h.call
  · rw [hhandle] at hreader
    rw [World.position, hhandle, hclient] at hposition
    rw [hclient] at hne
    rw [hentry i hreader]
    exact h.cursor i n hreader hposition hne

/-- Where `read` is not just about to return, the position is `read_index`. -/
theorem position_eq (hpc : ∀ index frame, (S.ring.handles r).pc ≠ .stored index frame) :
    S.position r = (S.clients r).readIndex := by
  unfold World.position
  split
  · next index frame heq => exact absurd heq (hpc index frame)
  · rfl

/-- A step of the reader in which no call returns. -/
theorem still (h : Follows S r) {W : State} {hd : Handle} (hself : W.handles r = hd)
    (hlive : hd.pc ≠ .dead) (hreturns : hd.returns = (S.ring.handles r).returns)
    (hunset : ¬ hd.pc.Settled → ¬ (S.ring.handles r).pc.Settled)
    (hcall : ∀ index, hd.pc.index? = some index → (S.clients r).readIndex = some index)
    (hcursor : ∀ i n, hd.reader = some i → (S.moved r W).position r = some n →
      n ≠ (S.clients r).start → (W.readers i).cursor = n) : Follows (S.moved r W) r := by
  subst hself
  have hclient : (S.moved r W).clients r = S.clients r := by
    rw [World.clients_moved, World.advanced_still hlive hreturns]
  refine ⟨fun hpc => ?_, fun index hindex => ?_, fun i n hreader hn hne => ?_⟩
  · rw [hclient]
    exact h.unset (hunset hpc)
  · rw [hclient]
    exact hcall index hindex
  · rw [hclient] at hne
    exact hcursor i n hreader hn hne

/-- One in which the cursor is not stored either. -/
theorem quiet (h : Follows S r) {W : State} {hd : Handle} (hself : W.handles r = hd)
    (hlive : hd.pc ≠ .dead) (hreturns : hd.returns = (S.ring.handles r).returns)
    (hunset : ¬ hd.pc.Settled → ¬ (S.ring.handles r).pc.Settled)
    (hcall : ∀ index, hd.pc.index? = some index → (S.clients r).readIndex = some index)
    (hstored : ∀ index frame, hd.pc ≠ .stored index frame)
    (hbefore : ∀ index frame, (S.ring.handles r).pc ≠ .stored index frame)
    (hentry : (S.clients r).readIndex = none ∨ ∀ i, hd.reader = some i →
      (S.ring.handles r).reader = some i ∧ W.readers i = S.ring.readers i) :
    Follows (S.moved r W) r := by
  refine h.still hself hlive hreturns hunset hcall fun i n hreader hn hne => ?_
  subst hself
  rw [position_eq (S := S.moved r W) hstored, World.clients_moved,
    World.advanced_still hlive hreturns] at hn
  rcases hentry with hnone | hentry
  · rw [hnone] at hn
    cases hn
  · obtain ⟨hold, hsame⟩ := hentry i hreader
    rw [hsame]
    exact h.cursor i n hold ((position_eq hbefore).trans hn) hne

/-- A call of `read` returns. -/
theorem returned {W : State} {index : ℕ} {status : FrameStatus}
    (hself : W.handles r = (S.ring.handles r).return index status)
    (hcursor : ∀ i n, (S.ring.handles r).reader = some i →
      ((S.clients r).after status).readIndex = some n →
      n ≠ ((S.clients r).after status).start → (W.readers i).cursor = n) :
    Follows (S.moved r W) r := by
  have hclient : (S.moved r W).clients r = (S.clients r).after status := by
    rw [World.clients_moved, World.advanced_return hself]
  have hpc : ((S.moved r W).ring.handles r).pc = .idle := congrArg Handle.pc hself
  refine ⟨fun hunset => ?_, fun index' hindex => ?_, fun i n hreader hn hne => ?_⟩
  · rw [hpc] at hunset
    exact absurd trivial hunset
  · rw [hpc] at hindex
    cases hindex
  · rw [position_eq (by rw [hpc]; exact nofun), hclient] at hn
    rw [hclient] at hne
    exact hcursor i n ((congrArg Handle.reader hself).symm.trans hreader) hn hne

/-- The process dies. -/
theorem died (h : Follows S r) : Follows (S.moved r (S.ring.setHandle r
    { S.ring.handles r with pc := .dead })) r := by
  have hpc : ((S.moved r (S.ring.setHandle r
      { S.ring.handles r with pc := .dead })).ring.handles r) =
        { S.ring.handles r with pc := .dead } := State.handles_setHandle r _
  have hclient : (S.moved r (S.ring.setHandle r
      { S.ring.handles r with pc := .dead })).clients r =
        { S.clients r with readIndex := S.position r } := by
    rw [World.clients_moved, World.advanced_dead (by rw [State.handles_setHandle])]
  refine ⟨fun hunset => ?_, fun index hindex => ?_, fun i n hreader hn hne => ?_⟩
  · rw [hpc] at hunset
    exact absurd trivial hunset
  · rw [hpc] at hindex
    cases hindex
  · rw [position_eq (by rw [hpc]; exact nofun), hclient] at hn
    rw [hclient] at hne
    rw [hpc] at hreader
    exact h.cursor i n hreader hn hne

/-- `read` with the mutex. -/
theorem check (h : Follows S r) {index : ℕ} (hpc : (S.ring.handles r).pc = .within index) :
    Follows (S.moved r (S.ring.check cfg r index)) r := by
  have hcall : (S.clients r).readIndex = some index := h.call index (by rw [hpc]; rfl)
  have hbefore : ∀ index frame, (S.ring.handles r).pc ≠ .stored index frame := by
    rw [hpc]
    exact nofun
  have hcursor : ∀ i n, (S.ring.handles r).reader = some i → (S.clients r).readIndex = some n →
      n ≠ (S.clients r).start → (S.ring.readers i).cursor = n :=
    fun i n hreader hn => h.cursor i n hreader ((position_eq hbefore).trans hn)
  unfold State.check
  dsimp only
  split
  · exact returned (State.handles_setHandle r _) hcursor
  · split
    · -- `kLapped`: the loop starts anew where it is sent
      refine returned (State.handles_setHandle r _) fun i n _ hn hne => ?_
      exact absurd (Option.some.inj hn).symm hne
    · split
      · refine returned (State.handles_setHandle r _) fun i n _ hn _ => ?_
        cases hn
      · refine h.quiet (State.handles_setHandle r _) nofun rfl (fun hunset => ?_) (fun i hi => ?_)
          nofun hbefore (Or.inr fun i hi => ⟨hi, rfl⟩)
        · exact absurd trivial hunset
        · exact hcall.trans hi

/-- **The reader itself.** -/
theorem stepSelf (h : Follows S r) {W : State}
    (hstep : ReaderStep cfg S.ring r W)
    (hcall : ∀ index, (W.handles r).pc.index? = some index →
      (S.clients r).readIndex = some index) : Follows (S.moved r W) r := by
  have hself : ∀ (W : State) hd, ((W.setHandle r hd).handles r) = hd := fun W =>
    State.handles_setHandle r
  -- before `read_index` is set there is nothing to say about the cursor
  have hfresh : (S.ring.handles r).pc.Fresh ∨ (∃ i, (S.ring.handles r).pc = .leave i) →
      (S.clients r).readIndex = none := by
    intro hpc
    refine h.unset ?_
    rcases hpc with hpc | ⟨i, hpc⟩
    · cases hcase : (S.ring.handles r).pc with
      | new | probe | reset | claim => exact id
      | _ => rw [hcase] at hpc; cases hpc
    · rw [hpc]
      exact id
  cases hstep with
  | attach hpc | found hpc | taken hpc | reset hpc | claim hpc =>
    refine h.quiet (hself _ _) nofun rfl (fun _ => ?_) nofun nofun (by rw [hpc]; exact nofun)
      (Or.inl (hfresh (Or.inl (by rw [hpc]; trivial))))
    rw [hpc]
    exact id
  | own hpc | full hpc =>
    refine h.quiet (hself _ _) nofun rfl (fun hunset => absurd trivial hunset) nofun nofun
      (by rw [hpc]; exact nofun) (Or.inl (hfresh (Or.inl (by rw [hpc]; trivial))))
  | leave hpc =>
    refine h.quiet (hself _ _) nofun rfl (fun hunset => absurd trivial hunset) nofun nofun
      (by rw [hpc]; exact nofun) (Or.inl (hfresh (Or.inr ⟨_, hpc⟩)))
  | read hpc | enter hpc =>
    rw [hself] at hcall
    exact h.quiet (hself _ _) nofun rfl (fun hunset => absurd trivial hunset) hcall nofun
      (by rw [hpc]; exact nofun) (Or.inr fun i hi => ⟨hi, rfl⟩)
  | busy hpc =>
    refine returned (hself _ _) fun i n hreader hn hne => ?_
    exact h.cursor i n hreader ((position_eq (by rw [hpc]; exact nofun)).trans hn) hne
  | check hpc => exact h.check hpc
  | @store index i frame hpc hreader =>
    -- the cursor is stored, and that is where the reader now stands
    rw [hself] at hcall
    refine h.still (hself _ _) nofun rfl (fun hunset => absurd trivial hunset) hcall
      fun j n hj hn _ => ?_
    cases hreader.symm.trans hj
    rw [World.position, World.moved, hself] at hn
    change ((S.ring.setReader i _).readers i).cursor = n
    rw [State.readers_setReader]
    exact Option.some.inj hn
  | skip hpc hreader =>
    rw [hself] at hcall
    refine h.still (hself _ _) nofun rfl (fun hunset => absurd trivial hunset) hcall
      fun j n hj _ _ => ?_
    cases hreader.symm.trans hj
  | @finish index frame hpc =>
    refine returned (hself _ _) fun i n hreader hn hne => ?_
    have hread := h.call index (by rw [hpc]; rfl)
    rw [Client.after, hread] at hn
    refine h.cursor i n hreader ?_ hne
    rw [World.position, hpc]
    exact hn
  | detach hpc hreader | drop hpc hreader =>
    exact h.still (hself _ _) nofun rfl (fun hunset => absurd trivial hunset) nofun nofun
  | kill => exact h.died

/-- **Every run.** -/
theorem reachable (h : (loops cfg).Reachable S) (r : ℕ) : Follows S r := by
  refine h.induction (P := fun S => Follows S r) start ?_
  intro S m S' hreach hfollows hmove
  have hreg := Registered.reachable (World.ring_reachable hreach)
  cases loops_cases hmove with
  | writer hstep =>
    obtain ⟨hreaders, hhandles, -, -⟩ := State.stepWriter_frame hstep
    exact hfollows.congr (congrFun hhandles r) rfl fun i _ => congrFun hreaders i
  | @reader q W hstep hcall =>
    by_cases hq : q = r
    · subst hq
      exact hfollows.stepSelf hstep hcall
    · refine hfollows.congr ((State.stepReader_frame hstep).2.2.2 r (Ne.symm hq))
        (World.clients_moved_of_ne (Ne.symm hq) W) fun i hi => ?_
      exact hreg.entry_kept hstep hq (Or.inl hi)
  | @begin q fromEdge hpc hnew hreturns =>
    by_cases hq : q = r
    · subst hq
      have hclient : Function.update S.clients q
          ((S.clients q).begin (if fromEdge then S.ring.writeIndex else 0)) q =
            (S.clients q).begin (if fromEdge then S.ring.writeIndex else 0) :=
        Function.update_self ..
      refine ⟨fun hunset => ?_, fun index hindex => ?_, fun i n _ hn hne => ?_⟩
      · rw [hpc] at hunset
        exact absurd trivial hunset
      · rw [hpc] at hindex
        cases hindex
      · -- it stands where it starts
        rw [position_eq (by rw [hpc]; exact nofun)] at hn
        dsimp only at hn hne
        rw [hclient] at hn hne
        exact absurd (Option.some.inj hn).symm hne
    · exact hfollows.congr rfl (Function.update_of_ne (Ne.symm hq) ..) fun _ _ => rfl

end Follows

end Shm
end PulseFanout
