import PulseFanout.Framework.Mutex
import PulseFanout.Shm.Ring

/-!
# The reader table

An entry of the table belongs to at most one reader: from the moment `attach` has found it free,
and until the reader is destroyed (`Registered.apart`). Entries are reused, and the new reader
sets the `cursor` to zero before its `pid` shows, so what another reader does to the table never
touches an entry in use (`Registered.entry_kept`).

`attach` needs the registry's mutex for that: two of its steps, the load of a `pid` that is zero
and the store of a new one, leave the entry free in between.
-/

namespace PulseFanout
namespace Shm

open Framework

/-- In `attach`, with the registry's mutex. -/
def ReaderPc.registering : ReaderPc → Option Unit
  | .probe _ | .reset _ | .claim _ | .leave _ => some ()
  | _ => none

/-- The entry `attach` has found free. -/
def ReaderPc.claiming : ReaderPc → Option ℕ
  | .reset i | .claim i => some i
  | _ => none

/-- Before `attach` has got an entry. -/
def ReaderPc.Fresh : ReaderPc → Prop
  | .new | .probe _ | .reset _ | .claim _ => True
  | _ => False

/-- After `attach`. -/
def ReaderPc.Settled : ReaderPc → Prop
  | .new | .probe _ | .reset _ | .claim _ | .leave _ => False
  | _ => True

theorem registering_of_settled {pc : ReaderPc} (h : pc.Settled) : pc.registering = none := by
  cases pc with
  | probe | reset | claim | leave => cases h
  | _ => rfl

/-- Entry `i` is the reader's, or about to be. -/
def Handle.Holds (h : Handle) (i : ℕ) : Prop := h.reader = some i ∨ h.pc.claiming = some i

/-- A reader and its entry. -/
structure Entry (readers : ℕ → ReaderState) (h : Handle) : Prop where
  claiming : ∀ i, h.pc.claiming = some i → i < maxReaders ∧ (readers i).pid = 0
  owned : ∀ i, h.reader = some i → i < maxReaders ∧ (readers i).pid ≠ 0
  /-- `attach` sets the cursor to zero. -/
  zero : ∀ i, h.pc = .claim i ∨ h.pc = .leave i → (readers i).cursor = 0
  fresh : h.pc.Fresh → h.reader = none ∧ h.returns = [] ∧ h.early = false
  leave : ∀ i, h.pc = .leave i → h.reader = some i ∧ h.returns = []

/-- What holds of the table at every moment. -/
structure Registered (W : State) : Prop where
  exclusive : Exclusive (fun _ : Unit => W.registry) fun r => (W.handles r).pc.registering
  entry : ∀ r, Entry W.readers (W.handles r)
  unique : ∀ r q i, (W.handles r).reader = some i → (W.handles q).reader = some i → r = q

/-- `read` with the mutex leaves the table alone. -/
theorem State.check_frame (cfg : Config) (W : State) (r index : ℕ) :
    (W.check cfg r index).registry = W.registry ∧ (W.check cfg r index).readers = W.readers ∧
      ∃ hd, (W.check cfg r index).handles r = hd ∧ hd.pc.Settled ∧
        hd.reader = (W.handles r).reader := by
  unfold check
  dsimp only
  repeat' split
  all_goals exact ⟨rfl, rfl, _, handles_setHandle r _, trivial, rfl⟩

variable {cfg : Config} {W W' : State}

theorem Entry.congr {readers readers' : ℕ → ReaderState} {h : Handle} (hentry : Entry readers h)
    (hsame : ∀ i, h.Holds i → readers' i = readers i) : Entry readers' h where
  claiming := fun i hi => by
    rw [hsame i (Or.inr hi)]
    exact hentry.claiming i hi
  owned := fun i hi => by
    rw [hsame i (Or.inl hi)]
    exact hentry.owned i hi
  zero := fun i hi => by
    have hholds : h.Holds i := by
      rcases hi with hpc | hpc
      · exact Or.inr (by rw [hpc]; rfl)
      · exact Or.inl (hentry.leave i hpc).1
    rw [hsame i hholds]
    exact hentry.zero i hi
  fresh := hentry.fresh
  leave := hentry.leave

/-- After `attach` only the owner matters. -/
theorem Entry.settled {readers : ℕ → ReaderState} {h : Handle} (hpc : h.pc.Settled)
    (howned : ∀ i, h.reader = some i → i < maxReaders ∧ (readers i).pid ≠ 0) :
    Entry readers h := by
  refine ⟨fun i hi => ?_, howned, fun i hi => ?_, fun hfresh => ?_, fun i hi => ?_⟩
  · cases hcase : h.pc with
    | reset | claim => rw [hcase] at hpc; cases hpc
    | _ => rw [hcase] at hi; cases hi
  · rcases hi with hi | hi <;> rw [hi] at hpc <;> cases hpc
  · cases hcase : h.pc with
    | new | probe | reset | claim => rw [hcase] at hpc; cases hpc
    | _ => rw [hcase] at hfresh; cases hfresh
  · rw [hi] at hpc
    cases hpc

/-- Within `attach` there is no owner yet. -/
theorem Entry.begun {readers readers' : ℕ → ReaderState} {h : Handle} (hentry : Entry readers h)
    (hfresh : h.pc.Fresh) {pc : ReaderPc} (hpc : pc.Fresh)
    (hclaiming : ∀ i, pc.claiming = some i → i < maxReaders ∧ (readers' i).pid = 0)
    (hzero : ∀ i, pc = .claim i → (readers' i).cursor = 0) :
    Entry readers' { h with pc } := by
  refine ⟨hclaiming, fun i hi => ?_, fun i hi => ?_, fun _ => hentry.fresh hfresh, fun i hi => ?_⟩
  · rw [(hentry.fresh hfresh).1] at hi
    cases hi
  · rcases hi with hi | hi
    · exact hzero i hi
    · cases hi
      cases hpc
  · cases hi
    cases hpc

/-- A reader changes no entry but its own. -/
theorem ReaderStep.readers {q : ℕ} (h : ReaderStep cfg W q W') {i : ℕ}
    (hi : ¬ (W.handles q).Holds i) : W'.readers i = W.readers i := by
  cases h with
  | @reset j hpc =>
    refine State.readers_setReader_of_ne ?_ _
    rintro rfl
    exact hi (Or.inr (by rw [hpc]; rfl))
  | @claim j pid hpc _ =>
    refine State.readers_setReader_of_ne ?_ _
    rintro rfl
    exact hi (Or.inr (by rw [hpc]; rfl))
  | @store index j frame hpc hreader =>
    refine State.readers_setReader_of_ne ?_ _
    rintro rfl
    exact hi (Or.inl hreader)
  | @detach j hpc hreader =>
    refine State.readers_setReader_of_ne ?_ _
    rintro rfl
    exact hi (Or.inl hreader)
  | check hpc => rw [(State.check_frame cfg W q _).2.1]
  | _ => rfl

namespace Registered

/-- **Entries are not shared.** -/
theorem apart (h : Registered W) {r q i : ℕ} (hr : (W.handles r).Holds i)
    (hq : (W.handles q).Holds i) : r = q := by
  have hregistering : ∀ r, (W.handles r).pc.claiming = some i →
      (W.handles r).pc.registering = some () := by
    intro r hclaiming
    cases hpc : (W.handles r).pc with
    | reset | claim => rfl
    | _ =>
      rw [hpc] at hclaiming
      cases hclaiming
  rcases hr with hr | hr <;> rcases hq with hq | hq
  · exact h.unique r q i hr hq
  · exact absurd ((h.entry q).claiming i hq).2 ((h.entry r).owned i hr).2
  · exact absurd ((h.entry r).claiming i hr).2 ((h.entry q).owned i hq).2
  · exact h.exclusive.unique (hregistering r hr) (hregistering q hq)

/-- What another reader does leaves an entry in use alone. -/
theorem entry_kept (h : Registered W) {r q i : ℕ} (hstep : ReaderStep cfg W q W') (hne : q ≠ r)
    (hr : (W.handles r).Holds i) : W'.readers i = W.readers i :=
  hstep.readers fun hq => hne (h.apart hq hr)

theorem start : Registered (ring cfg).start where
  exclusive := fun _ _ hp => nomatch hp
  entry := fun _ => ⟨nofun, nofun, fun _ hpc => hpc.elim nofun nofun, fun _ => ⟨rfl, rfl, rfl⟩,
    nofun⟩
  unique := nofun

theorem stepWriter (h : Registered W) (hstep : WriterStep cfg W W') :
    Registered W' := by
  obtain ⟨hreaders, hhandles, hregistry, -⟩ := State.stepWriter_frame hstep
  refine ⟨?_, ?_, ?_⟩
  · rw [hregistry, hhandles]; exact h.exclusive
  · rw [hreaders, hhandles]; exact h.entry
  · rw [hhandles]; exact h.unique

/-- The mutex and the owners after a step of one reader, given what that reader is then. -/
theorem reader (h : Registered W) {q : ℕ} (hstep : ReaderStep cfg W q W')
    (hexclusive : Exclusive (fun _ : Unit => W'.registry) fun r => (W'.handles r).pc.registering)
    (hentry : Entry W'.readers (W'.handles q))
    (howner : ∀ i, (W'.handles q).reader = some i → (W.handles q).Holds i) : Registered W' := by
  obtain ⟨-, -, -, hothers⟩ := State.stepReader_frame hstep
  refine ⟨hexclusive, fun r => ?_, ?_⟩
  · by_cases hr : r = q
    · rw [hr]
      exact hentry
    · rw [hothers r hr]
      exact (h.entry r).congr fun i hi => h.entry_kept hstep (Ne.symm hr) hi
  · -- whoever owns an entry afterwards held it before
    have hheld : ∀ r i, (W'.handles r).reader = some i → (W.handles r).Holds i := by
      intro r i hr
      by_cases hrq : r = q
      · subst hrq
        exact howner i hr
      · rw [hothers r hrq] at hr
        exact Or.inl hr
    exact fun r r' i hr hr' => h.apart (hheld r i hr) (hheld r' i hr')

/-- A step that leaves the registry's mutex alone. -/
theorem quiet (h : Registered W) {q : ℕ} {hd : Handle} (hstep : ReaderStep cfg W q W')
    (hregistry : W'.registry = W.registry) (hself : W'.handles q = hd)
    (hpc : hd.pc.registering = (W.handles q).pc.registering ∨ hd.pc.registering = none)
    (hentry : Entry W'.readers hd) (howner : ∀ i, hd.reader = some i → (W.handles q).Holds i) :
    Registered W' := by
  subst hself
  refine h.reader hstep (h.exclusive.stay (fun _ => hregistry) fun r => ?_) hentry howner
  by_cases hr : r = q
  · rw [hr]
    exact hpc
  · rw [(State.stepReader_frame hstep).2.2.2 r hr]
    exact Or.inl rfl

/-- A step after `attach` that leaves the table alone. -/
theorem settled (h : Registered W) {q : ℕ} {hd : Handle} (hstep : ReaderStep cfg W q W')
    (hregistry : W'.registry = W.registry) (hreaders : W'.readers = W.readers)
    (hself : W'.handles q = hd) (hpc : hd.pc.Settled)
    (hreader : hd.reader = (W.handles q).reader ∨ hd.reader = none) : Registered W' := by
  have hkept : ∀ i, hd.reader = some i → (W.handles q).reader = some i := by
    intro i hi
    rcases hreader with heq | hnone
    · rw [← heq, hi]
    · rw [hnone] at hi
      cases hi
  refine h.quiet hstep hregistry hself (Or.inr ?_) (Entry.settled hpc fun i hi => ?_)
    fun i hi => Or.inl (hkept i hi)
  · exact registering_of_settled hpc
  · rw [hreaders]
    exact (h.entry q).owned i (hkept i hi)

/-- `attach` begins. -/
theorem attach (h : Registered W) {q : ℕ} (hstep : ReaderStep cfg W q W')
    (hpc : (W.handles q).pc = .new) (hfree : W.free (W.registry.map .reader) = true)
    (hregistry : W'.registry = some q) (hreaders : W'.readers = W.readers)
    (hself : W'.handles q = { W.handles q with pc := .probe 0 }) : Registered W' := by
  have hfresh : (W.handles q).pc.Fresh := by rw [hpc]; trivial
  have hentry := (h.entry q).fresh hfresh
  refine h.reader hstep ?_ ?_ fun i hi => ?_
  · refine h.exclusive.acquire (p := q) (s := ()) (fun r hr => ?_) (fun _ ht => absurd rfl ht)
      hregistry (fun r hr => ?_) ?_
    · -- the owner of the mutex has died
      have hr' : W.registry = some r := hr
      rw [hr'] at hfree
      change (W.handles r).pc.registering = none
      rw [State.reader_of_dead hfree]
      rfl
    · rw [(State.stepReader_frame hstep).2.2.2 r hr]
    · rw [hself]
      rfl
  · rw [hself, hreaders]
    exact (h.entry q).begun hfresh trivial nofun nofun
  · rw [hself, hentry.1] at hi
    cases hi

/-- `attach` ends. -/
theorem detached (h : Registered W) {q : ℕ} {hd : Handle} (hstep : ReaderStep cfg W q W')
    (hpc : (W.handles q).pc.registering = some ()) (hreaders : W'.readers = W.readers)
    (hself : W'.handles q = hd) (hsettled : hd.pc.Settled)
    (hreader : hd.reader = (W.handles q).reader) : Registered W' := by
  refine h.reader hstep ?_ ?_ fun i hi => ?_
  · refine h.exclusive.release (p := q) hpc (fun _ ht => absurd rfl ht) (fun r hr => ?_) ?_
    · rw [(State.stepReader_frame hstep).2.2.2 r hr]
    · rw [hself, registering_of_settled hsettled]
  · rw [hself, hreaders]
    exact Entry.settled hsettled fun i hi => (h.entry q).owned i (hreader ▸ hi)
  · rw [hself, hreader] at hi
    exact Or.inl hi

/-- **A reader.** -/
theorem stepReader (h : Registered W) {q : ℕ} (hstep : ReaderStep cfg W q W') : Registered W' := by
  have hmove := hstep
  have hentry := h.entry q
  have hself : ∀ (W : State) hd, ((W.setHandle q hd).handles q) = hd := fun W =>
    State.handles_setHandle q
  cases hstep with
  | attach hpc hfree => exact h.attach hmove hpc hfree rfl rfl (hself _ _)
  | own hpc => exact h.settled hmove rfl rfl (hself _ _) trivial (Or.inl rfl)
  | found hpc hi hpid =>
    have hfresh : (W.handles q).pc.Fresh := by rw [hpc]; trivial
    refine h.quiet hmove rfl (hself _ _) (Or.inl (by rw [hpc]; rfl))
      (hentry.begun hfresh trivial (fun j hj => ?_) nofun) fun i hi => Or.inl hi
    cases hj
    exact ⟨hi, hpid⟩
  | taken hpc =>
    have hfresh : (W.handles q).pc.Fresh := by rw [hpc]; trivial
    exact h.quiet hmove rfl (hself _ _) (Or.inl (by rw [hpc]; rfl))
      (hentry.begun hfresh trivial nofun nofun) fun i hi => Or.inl hi
  | full hpc => exact h.detached hmove (by rw [hpc]; rfl) rfl (hself _ _) trivial rfl
  | @reset i hpc =>
    have hfresh : (W.handles q).pc.Fresh := by rw [hpc]; trivial
    have hclaiming := hentry.claiming i (by rw [hpc]; rfl)
    refine h.quiet hmove rfl (hself _ _) (Or.inl (by rw [hpc]; rfl))
      (hentry.begun hfresh trivial (fun j hj => ?_) fun j hj => ?_) fun i hi => Or.inl hi
    · cases hj
      change _ ∧ ((W.setReader i _).readers i).pid = 0
      rw [State.readers_setReader]
      exact hclaiming
    · cases hj
      change ((W.setReader i _).readers i).cursor = 0
      rw [State.readers_setReader]
  | @claim i pid hpc hpid =>
    -- the entry shows from now on
    have hfresh : (W.handles q).pc.Fresh := by rw [hpc]; trivial
    have hclaiming : (W.handles q).pc.claiming = some i := by rw [hpc]; rfl
    have hzero := hentry.zero i (Or.inl hpc)
    have hentry' : (W.setReader i { W.readers i with pid }).readers i =
        { W.readers i with pid } := State.readers_setReader i _
    refine h.quiet hmove rfl (hself _ _) (Or.inl (by rw [hpc]; rfl))
      ⟨nofun, fun j hj => ?_, fun j hj => ?_, nofun, fun j hj => ?_⟩ fun j hj => ?_
    · cases hj
      change i < maxReaders ∧ ((W.setReader i _).readers i).pid ≠ 0
      rw [hentry']
      exact ⟨(hentry.claiming i hclaiming).1, hpid⟩
    · rcases hj with hj | hj
      · cases hj
      · cases hj
        change ((W.setReader i _).readers i).cursor = 0
        rw [hentry']
        exact hzero
    · cases hj
      exact ⟨rfl, (hentry.fresh hfresh).2.1⟩
    · cases hj
      exact Or.inr hclaiming
  | leave hpc => exact h.detached hmove (by rw [hpc]; rfl) rfl (hself _ _) trivial rfl
  | read hpc => exact h.settled hmove rfl rfl (hself _ _) trivial (Or.inl rfl)
  | enter hpc hfree => exact h.settled hmove rfl rfl (hself _ _) trivial (Or.inl rfl)
  | busy hpc => exact h.settled hmove rfl rfl (hself _ _) trivial (Or.inl rfl)
  | @check index hpc =>
    obtain ⟨hregistry, hreaders, hd, hhandle, hsettled, hreader⟩ := State.check_frame cfg W q index
    exact h.settled hmove hregistry hreaders hhandle hsettled (Or.inl hreader)
  | @store index i frame hpc hreader =>
    have howned := hentry.owned i hreader
    refine h.quiet hmove rfl (hself _ _) (Or.inr rfl) (Entry.settled trivial fun j hj => ?_)
      fun j hj => Or.inl hj
    cases hreader.symm.trans hj
    change _ ∧ ((W.setReader i _).readers i).pid ≠ 0
    rw [State.readers_setReader]
    exact howned
  | skip hpc hreader => exact h.settled hmove rfl rfl (hself _ _) trivial (Or.inl rfl)
  | finish hpc => exact h.settled hmove rfl rfl (hself _ _) trivial (Or.inl rfl)
  | detach hpc hreader =>
    exact h.quiet hmove rfl (hself _ _) (Or.inr rfl) (Entry.settled trivial nofun) nofun
  | drop hpc hreader => exact h.settled hmove rfl rfl (hself _ _) trivial (Or.inr rfl)
  | kill => exact h.settled hmove rfl rfl (hself _ _) trivial (Or.inl rfl)

/-- **Every run.** -/
theorem reachable (h : (ring cfg).Reachable W) : Registered W := by
  refine h.invariant start ?_
  intro W a W' hreg hstep
  cases a with
  | writer a => exact hreg.stepWriter (State.stepWriter_cases hstep)
  | reader r a => exact hreg.stepReader (State.stepReader_cases hstep)

end Registered

end Shm
end PulseFanout
