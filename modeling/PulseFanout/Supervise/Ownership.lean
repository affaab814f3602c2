import PulseFanout.Supervise.Group

/-!
# The processes of a group

Every process the supervisor starts is in `children` until it has been waited for, except between
`Popen` and `append` (`Phase.pending`). A child that has no `returncode` is there, running or a
zombie, since nobody else waits for it: `poll` never meets `ECHILD`, and a signal that is sent to
its number reaches it and no other process (`Owned`). When the `finally` is through, all children
have been waited for (`Base.settled`), so outside of a run there is no process of this supervisor
(`Base.none_present`).

`Base` also says what a state file of the current run contains, which the discovery server relies
on. It is kept by what the steps of `supervise` do: polling, starting, listing, reading output,
writing and removing the file, sending a signal, and going to another phase.
-/

namespace PulseFanout
namespace Supervise

open Framework

/-! ### Phases -/

/-- A process that is not in `children` yet. -/
def Phase.pending : Phase → Option Process
  | .body (.launched _ p _) => some p
  | _ => none

/-- How many of `n` children have been waited for. -/
def Phase.settled (n : ℕ) : Phase → ℕ
  | .body _ => 0
  | .cleanup (.reap i) _ => i
  | .cleanup (.signalKill i) _ => i
  | .cleanup (.wait i) _ => i
  | .cleanup .lookup _ => n
  | .cleanup .read _ => n
  | .cleanup .unlink _ => n
  | .cleanup _ _ => 0
  | _ => n

/-- The run has processes. -/
def Phase.tending : Phase → Bool
  | .body _ => true
  | .cleanup .lookup _ => false
  | .cleanup .read _ => false
  | .cleanup .unlink _ => false
  | .cleanup _ _ => true
  | _ => false

/-- The run has not come to publish its state. -/
def Phase.starting : Phase → Bool
  | .body .watch => false
  | .body (.survey _) => false
  | .body _ => true
  | _ => false

/-- The jobs that are not in `children`. -/
def Stage.unlaunched : Stage → List Job
  | .launch rest => rest
  | .launched job _ rest => job :: rest
  | .listed _ rest => rest
  | .await _ rest => rest
  | .scan _ rest _ => rest
  | .own _ rest => rest
  | _ => []

/-- The jobs that are not known to be ready. -/
def Stage.unready : Stage → List Job
  | .launch rest => rest
  | .launched job _ rest => job :: rest
  | .listed job rest => job :: rest
  | .await job rest => job :: rest
  | .scan job rest _ => job :: rest
  | .own job rest => job :: rest
  | _ => []

theorem Phase.settled_of_not_tending {phase : Phase} {n : ℕ} (h : phase.tending = false) :
    phase.settled n = n := by
  cases phase with
  | body stage => cases h
  | cleanup step o => cases step <;> first | rfl | cases h
  | _ => rfl

theorem Phase.not_body_of_not_tending {phase : Phase} (h : phase.tending = false) :
    phase.pending = none ∧ phase.starting = false ∧ ∀ stage, phase ≠ .body stage := by
  cases phase with
  | body stage => cases h
  | _ => exact ⟨rfl, rfl, fun stage heq => by cases heq⟩

/-! ### The invariant -/

/-- Whose processes they are. -/
structure Owned (s : System) : Prop where
  used : ∀ x ∈ s.started, x.2 ∈ s.table.used
  child : ∀ c ∈ s.children, (s.epoch, c.process) ∈ s.started
  /-- Nobody else waits for a child. -/
  fate : ∀ c ∈ s.children, c.returncode = none ↔ s.table.Present c.process
  nodup : (s.children.map Child.process).Nodup
  pending : ∀ p, s.phase.pending = some p →
    (s.epoch, p) ∈ s.started ∧ s.table.Present p ∧ p ∉ s.children.map Child.process
  present : ∀ x ∈ s.started, s.table.Present x.2 →
    x.1 = s.epoch ∧ (x.2 ∈ s.children.map Child.process ∨ s.phase.pending = some x.2)
  signalled : ∀ p ∈ s.signalled, ∃ e, (e, p) ∈ s.started

/-- How far a group has come. -/
structure Starting (plan : Plan) (s : System) (stage : Stage) : Prop where
  run : s.epoch ∈ s.runs
  names : s.children.map Child.name ++ stage.unlaunched.map Job.name = plan.jobs.map Job.name
  ready : ∃ done, plan.jobs = done ++ stage.unready ∧
    ∀ job ∈ done, job.awaited = true → job.name ∈ s.out.ready

/-- The record of the current run. -/
structure Current (plan : Plan) (s : System) (r : Record) : Prop where
  services : r.services = s.children.map Child.registration
  names : r.services.map Registration.name = plan.jobs.map Job.name
  ready : ∀ job ∈ plan.jobs, job.awaited = true → job.name ∈ s.out.ready
  started : s.phase.starting = false

/-- The epoch of the file there was. -/
def Setup.taken (S : Setup) : List ℕ := ((S.file.bind Content.value).map Record.epoch).toList

/-- Where a file comes from. -/
structure Filed (S : Setup) (s : System) (r : Record) : Prop where
  used : ∀ v ∈ r.services, v.process ∈ s.table.used
  origin : r.epoch ∈ S.taken ∨ r.epoch ∈ s.runs ∧ r.services ≠ [] ∧
    ∀ v ∈ r.services, (r.epoch, v.process) ∈ s.started
  current : r.epoch ∈ s.runs → r.epoch = s.epoch → Current S.plan s r

/-- The invariant, without what the loops over the children have found. -/
structure Base (S : Setup) (s : System) : Prop where
  owned : Owned s
  settled : ∀ i c, i < s.phase.settled s.children.length → s.children[i]? = some c →
    c.returncode ≠ none
  starting : ∀ stage, s.phase = .body stage → Starting S.plan s stage
  filed : ∀ r, s.record = some r → Filed S s r
  fresh : ∀ e ∈ s.runs, e ∉ S.taken

variable {S : Setup} {s s' : System} {c : Child} {i : ℕ}

/-! ### Polling -/

section Poll

variable {T : ProcessTable}

theorem poll_registration (T : ProcessTable) (c : Child) :
    (poll T c).2.registration = c.registration := by
  unfold poll
  split
  · rfl
  · split <;> rfl

theorem poll_later (T : ProcessTable) (c : Child) : T.Later (poll T c).1 := by
  unfold poll
  split
  · exact .refl T
  split
  · exact .refl T
  · exact ProcessTable.bury_later T c.process
  · exact .refl T

/-- A child that is there or has been waited for. -/
theorem poll_fate (h : c.returncode = none ↔ T.Present c.process) :
    ((poll T c).2.returncode = none ↔ (poll T c).1.Present c.process) ∧
      (c.returncode ≠ none → (poll T c).2 = c) ∧
      ∀ q ≠ c.process, (poll T c).1.Present q ↔ T.Present q := by
  unfold poll
  split
  · exact ⟨h, fun _ => rfl, fun q _ => Iff.rfl⟩
  next hnone =>
  split
  · exact ⟨h, fun _ => rfl, fun q _ => Iff.rfl⟩
  · refine ⟨⟨fun hsome => absurd hsome (Option.some_ne_none _), fun hpresent => ?_⟩,
      fun hsome => absurd hnone hsome, ?_⟩
    · exact absurd (ProcessTable.life_bury_self T c.process) hpresent
    · intro q hne
      unfold ProcessTable.Present
      rw [ProcessTable.life_bury_of_ne hne]
  · next hgone => exact absurd hgone (h.mp hnone)

end Poll

/-- What `poll` leaves as it is. -/
structure Polled (s : System) (i : ℕ) (s' : System) (c : Child) : Prop where
  self : s'.children[i]? = some c
  other : ∀ j ≠ i, s'.children[j]? = s.children[j]?
  registrations : s'.children.map Child.registration = s.children.map Child.registration
  /-- What has been waited for stays so. -/
  kept : ∀ d, s.children[i]? = some d → d.returncode ≠ none → c = d
  later : s.table.Later s'.table
  eq : s' = { s with table := s'.table, children := s'.children }

theorem Polled.length_eq (h : Polled s i s' c) : s'.children.length = s.children.length := by
  have hlength := congrArg List.length h.registrations
  rw [List.length_map, List.length_map] at hlength
  exact hlength

theorem Polled.processes (h : Polled s i s' c) :
    s'.children.map Child.process = s.children.map Child.process := by
  have hmap := congrArg (List.map Registration.process) h.registrations
  rw [List.map_map, List.map_map] at hmap
  exact hmap

theorem Polled.names (h : Polled s i s' c) :
    s'.children.map Child.name = s.children.map Child.name := by
  have hmap := congrArg (List.map Registration.name) h.registrations
  rw [List.map_map, List.map_map] at hmap
  exact hmap

theorem Owned.polled (h : Owned s) (hp : s.poll i = some (s', c)) :
    Owned s' ∧ Polled s i s' c := by
  unfold System.poll at hp
  split at hp
  · cases hp
  next d hd =>
  obtain ⟨rfl, rfl⟩ := Prod.mk.inj (Option.some.inj hp)
  have hmem : d ∈ s.children := List.mem_of_getElem? hd
  have hi : i < s.children.length := (List.getElem?_eq_some_iff.mp hd).1
  obtain ⟨hfate, hkept, hother⟩ := poll_fate (h.fate d hmem)
  have hreg := poll_registration s.table d
  have hproc : (poll s.table d).2.process = d.process := congrArg Registration.process hreg
  have hregs : (s.children.set i (poll s.table d).2).map Child.registration =
      s.children.map Child.registration := by
    rw [List.map_set, hreg]
    refine List.ext_getElem? fun j => ?_
    by_cases hj : i = j
    · subst hj
      rw [List.getElem?_set_self (by rw [List.length_map]; exact hi), List.getElem?_map, hd]
      rfl
    · rw [List.getElem?_set_ne hj]
  have hP : Polled s i
      { s with
        table := (poll s.table d).1
        children := s.children.set i (poll s.table d).2 } (poll s.table d).2 := by
    refine ⟨List.getElem?_set_self hi, fun j hj => List.getElem?_set_ne (Ne.symm hj), hregs, ?_,
      poll_later s.table d, rfl⟩
    intro d' hd' hsome
    cases hd.symm.trans hd'
    exact hkept hsome
  refine ⟨?_, hP⟩
  have hprocs := hP.processes
  have hchild : ∀ e ∈ s.children.set i (poll s.table d).2,
      e = (poll s.table d).2 ∨ e ∈ s.children ∧ e.process ≠ d.process := by
    intro e he
    obtain ⟨j, hj⟩ := List.mem_iff_getElem?.mp he
    by_cases hij : i = j
    · subst hij
      rw [List.getElem?_set_self hi] at hj
      exact .inl (Option.some.inj hj).symm
    · rw [List.getElem?_set_ne hij] at hj
      refine .inr ⟨List.mem_of_getElem? hj, fun heq => hij ?_⟩
      -- the children are different processes
      have hleft : (s.children.map Child.process)[i]? = some d.process := by
        rw [List.getElem?_map, hd]
        rfl
      have hright : (s.children.map Child.process)[j]? = some d.process := by
        rw [List.getElem?_map, hj, ← heq]
        rfl
      have hlt : i < (s.children.map Child.process).length := by
        rw [List.length_map]
        exact hi
      exact (List.getElem?_inj hlt h.nodup).mp (hleft.trans hright.symm)
  constructor
  case used => exact fun x hx => (poll_later s.table d).used (h.used x hx)
  case child =>
    intro e he
    rcases hchild e he with rfl | ⟨he, -⟩
    · rw [hproc]
      exact h.child d hmem
    · exact h.child e he
  case fate =>
    intro e he
    rcases hchild e he with rfl | ⟨he, hne⟩
    · rw [hproc]
      exact hfate
    · exact (h.fate e he).trans (hother e.process hne).symm
  case nodup =>
    rw [hprocs]
    exact h.nodup
  case pending =>
    intro p hpend
    obtain ⟨hstarted, hpresent, hnot⟩ := h.pending p hpend
    rw [hprocs]
    refine ⟨hstarted, (hother p fun heq => hnot ?_).mpr hpresent, hnot⟩
    rw [heq]
    exact List.mem_map_of_mem hmem
  case present =>
    intro x hx hpresent
    rw [hprocs]
    exact h.present x hx ((poll_later s.table d).present (h.used x hx) hpresent)
  case signalled => exact h.signalled

theorem Base.polled (h : Base S s) (hp : s.poll i = some (s', c)) :
    Base S s' ∧ Polled s i s' c := by
  obtain ⟨howned, hP⟩ := h.owned.polled hp
  have hphase : s'.phase = s.phase := by rw [hP.eq]
  have hout : s'.out = s.out := by rw [hP.eq]
  have hruns : s'.runs = s.runs := by rw [hP.eq]
  have hepoch : s'.epoch = s.epoch := by rw [hP.eq]
  have hrecord : s'.record = s.record := by
    rw [hP.eq]
    rfl
  have hstarted : s'.started = s.started := by rw [hP.eq]
  refine ⟨⟨howned, ?_, ?_, ?_, ?_⟩, hP⟩
  · intro j d hj hd
    rw [hphase, hP.length_eq] at hj
    by_cases hij : j = i
    · subst hij
      have hlt : j < s.children.length := by
        rw [← hP.length_eq]
        exact (List.getElem?_eq_some_iff.mp hd).1
      have hold := List.getElem?_eq_getElem hlt
      have hsome := h.settled j _ hj hold
      rw [← hP.kept _ hold hsome] at hsome
      cases hP.self.symm.trans hd
      exact hsome
    · rw [hP.other j hij] at hd
      exact h.settled j d hj hd
  · intro stage hstage
    obtain ⟨hrun, hnames, hready⟩ := h.starting stage (hphase ▸ hstage)
    refine ⟨?_, ?_, ?_⟩
    · rw [hepoch, hruns]
      exact hrun
    · rw [hP.names]
      exact hnames
    · rw [hout]
      exact hready
  · intro r hr
    rw [hrecord] at hr
    obtain ⟨hused, horigin, hcurrent⟩ := h.filed r hr
    refine ⟨fun v hv => hP.later.used (hused v hv), ?_, ?_⟩
    · rw [hruns, hstarted]
      exact horigin
    · rw [hruns, hepoch]
      intro hrun heq
      obtain ⟨hservices, hnames, hready, hstart⟩ := hcurrent hrun heq
      refine ⟨?_, hnames, ?_, ?_⟩
      · rw [hP.registrations]
        exact hservices
      · rw [hout]
        exact hready
      · rw [hphase]
        exact hstart
  · rw [hruns]
    exact h.fresh

/-! ### Steps of the supervisor -/

theorem Owned.to (h : Owned s) (file : Option Content) {phase : Phase}
    (hpending : phase.pending = s.phase.pending) :
    Owned { s with
      file := file
      phase := phase } where
  used := h.used
  child := h.child
  fate := h.fate
  nodup := h.nodup
  pending p hp := h.pending p (hpending ▸ hp)
  present x hx hpresent := by
    have hold := h.present x hx hpresent
    rw [← hpending] at hold
    exact hold
  signalled := h.signalled

/-- To another phase, with everything else as it is. -/
theorem Base.to (h : Base S s) {phase : Phase} (hpending : phase.pending = s.phase.pending)
    (hsettled : ∀ i c, i < phase.settled s.children.length → s.children[i]? = some c →
      c.returncode ≠ none)
    (hstage : ∀ stage, phase = .body stage → Starting S.plan s stage)
    (hstarting : phase.starting = true → s.phase.starting = true) : Base S (s.to phase) where
  owned := h.owned.to s.file hpending
  settled := hsettled
  starting stage hphase :=
    have hold := hstage stage hphase
    ⟨hold.run, hold.names, hold.ready⟩
  filed r hr := {
    used := (h.filed r hr).used
    origin := (h.filed r hr).origin
    current := by
      intro hrun heq
      obtain ⟨hservices, hnames, hready, hstart⟩ := (h.filed r hr).current hrun heq
      refine ⟨hservices, hnames, hready, ?_⟩
      by_contra hnot
      rw [Bool.not_eq_false] at hnot
      rw [hstarting hnot] at hstart
      cases hstart }
  fresh := h.fresh

/-- To the `finally`, or on in it. -/
theorem Base.toCleanup (h : Base S s) {step : Cleanup} {o : Outcome}
    (hpending : s.phase.pending = none)
    (hsettled : ∀ i c, i < (Phase.cleanup step o).settled s.children.length →
      s.children[i]? = some c → c.returncode ≠ none) : Base S (s.to (.cleanup step o)) := by
  refine h.to hpending.symm hsettled (fun stage heq => ?_) fun hstart => ?_
  · cases heq
  · cases hstart

theorem Base.leave (h : Base S s) (hpending : s.phase.pending = none) (o : Outcome) :
    Base S (s.leave o) :=
  h.toCleanup hpending fun i _ hi => absurd hi (Nat.not_lt_zero i)

/-- While a group is started, a file there is comes from another run. -/
theorem Base.not_current (h : Base S s) (hstart : s.phase.starting = true) {r : Record}
    (hr : s.record = some r) (hrun : r.epoch ∈ s.runs) : r.epoch ≠ s.epoch := by
  intro heq
  have hnot := ((h.filed r hr).current hrun heq).started
  rw [hstart] at hnot
  cases hnot

/-- Outside of a run all children have been waited for. -/
theorem Base.all_settled (h : Base S s) (hphase : s.phase.tending = false) {i : ℕ} {c : Child}
    (hc : s.children[i]? = some c) : c.returncode ≠ none := by
  refine h.settled i c ?_ hc
  rw [Phase.settled_of_not_tending hphase]
  exact (List.getElem?_eq_some_iff.mp hc).1

/-- So no process is left. -/
theorem Base.none_present (h : Base S s) (hphase : s.phase.tending = false) :
    ∀ x ∈ s.started, ¬s.table.Present x.2 := by
  intro x hx hpresent
  obtain ⟨-, hchild | hpend⟩ := h.owned.present x hx hpresent
  · obtain ⟨c, hc, hprocess⟩ := List.mem_map.mp hchild
    obtain ⟨i, hi⟩ := List.mem_iff_getElem?.mp hc
    exact h.all_settled hphase hi ((h.owned.fate c hc).mpr (hprocess ▸ hpresent))
  · rw [(Phase.not_body_of_not_tending hphase).1] at hpend
    cases hpend

/-- `begin`: there is no process of the runs before. -/
theorem Base.begin (h : Base S s) (hphase : s.phase = .begin) {epoch : ℕ} (hnew : epoch ∉ s.runs)
    (htaken : epoch ∉ S.taken) :
    Base S { s with
      epoch := epoch
      runs := epoch :: s.runs
      children := []
      out := {}
      phase := .body (.launch S.plan.jobs) } where
  owned := {
    used := h.owned.used
    child := fun c hc => absurd hc List.not_mem_nil
    fate := fun c hc => absurd hc List.not_mem_nil
    nodup := List.nodup_nil
    pending := fun p hp => by cases hp
    present := fun x hx hpresent =>
      absurd hpresent (h.none_present (by rw [hphase]; rfl) x hx)
    signalled := h.owned.signalled }
  settled i c hi := absurd hi (Nat.not_lt_zero i)
  starting stage hstage := by
    cases hstage
    exact ⟨List.mem_cons_self, rfl, [], rfl, fun job hjob => absurd hjob List.not_mem_nil⟩
  filed r hr := by
    obtain ⟨hused, horigin, -⟩ := h.filed r hr
    refine ⟨hused, horigin.imp_right fun ⟨hrun, hrest⟩ => ⟨List.mem_cons_of_mem _ hrun, hrest⟩, ?_⟩
    intro _ heq
    change r.epoch = epoch at heq
    rw [heq] at horigin
    rcases horigin with hold | ⟨hold, -⟩
    · exact absurd hold htaken
    · exact absurd hold hnew
  fresh e he := by
    rcases List.mem_cons.mp he with rfl | he
    · exact htaken
    · exact h.fresh e he

/-- `Popen` -/
theorem Base.popen (h : Base S s) {job : Job} {rest : List Job}
    (hphase : s.phase = .body (.launch (job :: rest))) {p : Process} {T : ProcessTable}
    (hspawn : s.table.spawn p = some T) :
    Base S { s with
      table := T
      started := (s.epoch, p) :: s.started
      phase := .body (.launched job p rest) } := by
  obtain ⟨-, hnew, hused, hself, hother⟩ := ProcessTable.spawn_eq hspawn
  have hpresent : T.Present p := by
    rw [ProcessTable.Present, hself]
    exact Option.some_ne_none _
  -- what was there before is not the new process
  have hne : ∀ q ∈ s.table.used, q ≠ p := fun q hq heq => hnew (heq ▸ hq)
  have hiff : ∀ q ∈ s.table.used, T.Present q ↔ s.table.Present q := by
    intro q hq
    unfold ProcessTable.Present
    rw [hother q (hne q hq)]
  have hchildren : ∀ c ∈ s.children, c.process ∈ s.table.used :=
    fun c hc => h.owned.used _ (h.owned.child c hc)
  have hstarting : s.phase.starting = true := by
    rw [hphase]
    rfl
  refine ⟨⟨?_, ?_, ?_, h.owned.nodup, ?_, ?_, ?_⟩,
    fun i c hi => absurd hi (Nat.not_lt_zero i), ?_, ?_, h.fresh⟩
  · intro x hx
    change x.2 ∈ T.used
    rw [hused]
    rcases List.mem_cons.mp hx with rfl | hx
    · exact List.mem_cons_self
    · exact List.mem_cons_of_mem _ (h.owned.used x hx)
  · exact fun c hc => List.mem_cons_of_mem _ (h.owned.child c hc)
  · exact fun c hc => (h.owned.fate c hc).trans (hiff _ (hchildren c hc)).symm
  · intro q hq
    cases hq
    refine ⟨List.mem_cons_self, hpresent, fun hmem => ?_⟩
    obtain ⟨c, hc, heq⟩ := List.mem_map.mp hmem
    exact hne _ (hchildren c hc) heq
  · intro x hx hthere
    rcases List.mem_cons.mp hx with rfl | hx
    · exact ⟨rfl, .inr rfl⟩
    · have hold := h.owned.present x hx ((hiff _ (h.owned.used x hx)).mp hthere)
      rw [hphase] at hold
      exact ⟨hold.1, .inl (hold.2.resolve_right fun hpend => by cases hpend)⟩
  · exact fun q hq => (h.owned.signalled q hq).imp fun e he => List.mem_cons_of_mem _ he
  · intro stage hstage
    cases hstage
    have hold := h.starting _ hphase
    exact ⟨hold.run, hold.names, hold.ready⟩
  · intro r hr
    obtain ⟨hknown, horigin, -⟩ := h.filed r hr
    refine ⟨?_, ?_, fun hrun heq => absurd heq (h.not_current hstarting hr hrun)⟩
    · intro v hv
      change v.process ∈ T.used
      rw [hused]
      exact List.mem_cons_of_mem _ (hknown v hv)
    · refine horigin.imp_right (And.imp_right (And.imp_right fun hstarted v hv => ?_))
      exact List.mem_cons_of_mem _ (hstarted v hv)

/-- `children.append` -/
theorem Base.append (h : Base S s) {job : Job} {rest : List Job} {p : Process}
    (hphase : s.phase = .body (.launched job p rest)) :
    Base S { s with
      children := s.children ++ [⟨job.name, p, none⟩]
      phase := .body (.listed job rest) } := by
  obtain ⟨hstarted, hpresent, hnew⟩ := h.owned.pending p (by rw [hphase]; rfl)
  have hstarting : s.phase.starting = true := by
    rw [hphase]
    rfl
  have hcases : ∀ c ∈ s.children ++ [(⟨job.name, p, none⟩ : Child)],
      c ∈ s.children ∨ c = ⟨job.name, p, none⟩ := by
    intro c hc
    rw [List.mem_append, List.mem_singleton] at hc
    exact hc
  refine ⟨⟨h.owned.used, ?_, ?_, ?_, fun q hq => ?_, ?_, h.owned.signalled⟩,
    fun i c hi => absurd hi (Nat.not_lt_zero i), ?_, ?_, h.fresh⟩
  · intro c hc
    rcases hcases c hc with hc | rfl
    · exact h.owned.child c hc
    · exact hstarted
  · intro c hc
    rcases hcases c hc with hc | rfl
    · exact h.owned.fate c hc
    · exact ⟨fun _ => hpresent, fun _ => rfl⟩
  · rw [List.map_append]
    exact h.owned.nodup.append (List.nodup_singleton _)
      (List.disjoint_singleton.mpr hnew)
  · cases hq
  · intro x hx hthere
    obtain ⟨hepoch, hwhere⟩ := h.owned.present x hx hthere
    refine ⟨hepoch, .inl ?_⟩
    rw [List.map_append, List.mem_append]
    rcases hwhere with hchild | hpend
    · exact .inl hchild
    · rw [hphase] at hpend
      cases hpend
      exact .inr (List.mem_singleton_self _)
  · intro stage hstage
    cases hstage
    obtain ⟨hrun, hnames, hready⟩ := h.starting _ hphase
    refine ⟨hrun, ?_, hready⟩
    rw [List.map_append, List.append_assoc]
    exact hnames
  · intro r hr
    obtain ⟨hknown, horigin, -⟩ := h.filed r hr
    exact ⟨hknown, horigin, fun hrun heq => absurd heq (h.not_current hstarting hr hrun)⟩

/-- `drain` takes no name out of `ready`. -/
theorem ready_subset_drainAll {cfg : Config} (out : State) (chunks : List (Chunk cfg)) :
    out.ready ⊆ (drainAll out chunks).ready := by
  induction chunks generalizing out with
  | nil => exact Finset.Subset.refl _
  | cons chunk chunks ih =>
    refine Finset.Subset.trans ?_ (ih (drainOne chunk.service chunk.bytes out))
    unfold drainOne
    split
    · exact Finset.Subset.refl _
    dsimp only
    split
    · exact Finset.subset_insert _ _
    · exact Finset.Subset.refl _

/-- What is ready stays so. -/
theorem Base.drained (h : Base S s) {out : State} (hmono : s.out.ready ⊆ out.ready) :
    Base S { s with out := out } where
  owned := ⟨h.owned.used, h.owned.child, h.owned.fate, h.owned.nodup, h.owned.pending,
    h.owned.present, h.owned.signalled⟩
  settled := h.settled
  starting stage hstage := by
    obtain ⟨hrun, hnames, done, heq, hready⟩ := h.starting stage hstage
    exact ⟨hrun, hnames, done, heq, fun job hjob hawaited => hmono (hready job hjob hawaited)⟩
  filed r hr := by
    obtain ⟨hknown, horigin, hcurrent⟩ := h.filed r hr
    refine ⟨hknown, horigin, fun hrun heq => ?_⟩
    obtain ⟨hservices, hnames, hready, hstart⟩ := hcurrent hrun heq
    exact ⟨hservices, hnames, fun job hjob hawaited => hmono (hready job hjob hawaited), hstart⟩
  fresh := h.fresh

/-- The state file is written. -/
theorem Base.publish (h : Base S s) {r : Record} (hphase : s.phase = .body (.publish r))
    (hr : r = ⟨s.epoch, s.children.map Child.registration⟩) (length : ℕ) :
    Base S { s with
      file := some ⟨length, some r⟩
      phase := .body .watch } where
  owned := h.owned.to _ (by rw [hphase]; rfl)
  settled i c hi := absurd hi (Nat.not_lt_zero i)
  starting stage hstage := by
    cases hstage
    have hold := h.starting _ hphase
    exact ⟨hold.run, hold.names, hold.ready⟩
  filed r' hr' := by
    cases hr'
    obtain ⟨hrun, hnames, done, hdone, hready⟩ := h.starting _ hphase
    have hprocess : ∀ v ∈ r.services, (s.epoch, v.process) ∈ s.started := by
      intro v hv
      rw [hr] at hv
      obtain ⟨c, hc, rfl⟩ := List.mem_map.mp hv
      exact h.owned.child c hc
    have hservices : r.services.map Registration.name = S.plan.jobs.map Job.name := by
      rw [hr, ← hnames, List.map_map]
      exact (List.append_nil _).symm
    refine ⟨fun v hv => h.owned.used _ (hprocess v hv), .inr ⟨?_, ?_, ?_⟩, ?_⟩
    · rw [hr]
      exact hrun
    · intro hnil
      rw [hnil] at hservices
      have hlength := congrArg List.length hservices
      rw [List.length_map, List.length_map, List.length_nil] at hlength
      have hsize := S.plan.size.1
      omega
    · intro v hv
      rw [hr]
      exact hprocess v hv
    · intro _ _
      refine ⟨by rw [hr], hservices, fun job hjob => hready job ?_, rfl⟩
      rw [hdone] at hjob
      exact (List.mem_append.mp hjob).resolve_right List.not_mem_nil
  fresh := h.fresh

/-- The state file is removed. -/
theorem Base.unlink (h : Base S s) : Base S { s with file := none } where
  owned := h.owned.to none rfl
  settled := h.settled
  starting stage hstage := by
    have hold := h.starting stage hstage
    exact ⟨hold.run, hold.names, hold.ready⟩
  filed r hr := by cases hr
  fresh := h.fresh

/-- A signal reaches a child. -/
theorem Base.signal (h : Base S s) (i : ℕ) :
    Base S (s.sendSignal i) ∧ (s.sendSignal i).phase = s.phase ∧
      (s.sendSignal i).children.length = s.children.length := by
  unfold System.sendSignal
  split
  · exact ⟨h, rfl, rfl⟩
  next s₁ c hpoll =>
  obtain ⟨h₁, hP⟩ := h.polled hpoll
  have hphase : s₁.phase = s.phase := by rw [hP.eq]
  split
  · next hnone =>
    have hc : c ∈ s₁.children := List.mem_of_getElem? hP.self
    obtain ⟨life, hlife⟩ := Option.ne_none_iff_exists'.mp ((h₁.owned.fate c hc).mp hnone)
    unfold System.kill
    rw [ProcessTable.entry_of_life hlife]
    refine ⟨⟨⟨h₁.owned.used, h₁.owned.child, h₁.owned.fate, h₁.owned.nodup, h₁.owned.pending,
      h₁.owned.present, ?_⟩, h₁.settled, ?_, ?_, h₁.fresh⟩, hphase, hP.length_eq⟩
    · intro p hp
      rcases List.mem_cons.mp hp with rfl | hp
      · exact ⟨_, h₁.owned.child c hc⟩
      · exact h₁.owned.signalled p hp
    · intro stage hstage
      have hold := h₁.starting stage hstage
      exact ⟨hold.run, hold.names, hold.ready⟩
    · intro r hr
      obtain ⟨hknown, horigin, hcurrent⟩ := h₁.filed r hr
      refine ⟨hknown, horigin, fun hrun heq => ?_⟩
      obtain ⟨hservices, hnames, hready, hstart⟩ := hcurrent hrun heq
      exact ⟨hservices, hnames, hready, hstart⟩
  · exact ⟨h₁, hphase, hP.length_eq⟩

/-! ### What the supervisor does not do -/

/-- Other processes. -/
theorem Base.world (h : Base S s) {T : ProcessTable} (hlater : s.table.Later T)
    (hsame : ∀ x ∈ s.started, T.Present x.2 ↔ s.table.Present x.2) :
    Base S { s with table := T } where
  owned := {
    used := fun x hx => hlater.used (h.owned.used x hx)
    child := h.owned.child
    fate := fun c hc => (h.owned.fate c hc).trans (hsame _ (h.owned.child c hc)).symm
    nodup := h.owned.nodup
    pending := by
      intro p hp
      obtain ⟨hstarted, hpresent, hnew⟩ := h.owned.pending p hp
      exact ⟨hstarted, (hsame _ hstarted).mpr hpresent, hnew⟩
    present := fun x hx hpresent => h.owned.present x hx ((hsame x hx).mp hpresent)
    signalled := h.owned.signalled }
  settled := h.settled
  starting stage hstage := by
    have hold := h.starting stage hstage
    exact ⟨hold.run, hold.names, hold.ready⟩
  filed r hr := by
    obtain ⟨hknown, horigin, hcurrent⟩ := h.filed r hr
    refine ⟨fun v hv => hlater.used (hknown v hv), horigin, fun hrun heq => ?_⟩
    obtain ⟨hservices, hnames, hready, hstart⟩ := hcurrent hrun heq
    exact ⟨hservices, hnames, hready, hstart⟩
  fresh := h.fresh

/-- What the invariant is not about. -/
theorem Base.frame (h : Base S s) (attempt : ℕ) (handler : Handler) (requests : ℕ) :
    Base S { s with
      attempt := attempt
      handler := handler
      requests := requests } where
  owned := ⟨h.owned.used, h.owned.child, h.owned.fate, h.owned.nodup, h.owned.pending,
    h.owned.present, h.owned.signalled⟩
  settled := h.settled
  starting stage hstage := by
    have hold := h.starting stage hstage
    exact ⟨hold.run, hold.names, hold.ready⟩
  filed r hr := by
    obtain ⟨hknown, horigin, hcurrent⟩ := h.filed r hr
    refine ⟨hknown, horigin, fun hrun heq => ?_⟩
    obtain ⟨hservices, hnames, hready, hstart⟩ := hcurrent hrun heq
    exact ⟨hservices, hnames, hready, hstart⟩
  fresh := h.fresh

end Supervise
end PulseFanout
