import PulseFanout.Supervise.Ownership

/-!
# Starting a group again

Every step of the supervisor keeps `Invariant`, which is `Base` with what the loops over the
children have found (`Checked`). The supervisor starts its group again after an error, and then it
is alone: of the processes of the runs before none is left, neither running nor as a zombie, and no
signal was ever sent to a process that is not of the group (`groups_never_overlap`).

This is so if no exception comes where a child is lost sight of (`Orderly`). In between `Popen` and
`append` a signal to stop leaves a service behind (`interrupted_launch_leaks`).
-/

namespace PulseFanout
namespace Supervise

open Framework

variable {S : Setup} {s s' : System} {c : Child} {i : ℕ}

/-! ### Stages -/

/-- What the loops over the children have found. -/
def Checked (s : System) : Stage → Prop
  | .check i => ∀ j c, j < i → s.children[j]? = some c → c.returncode = none
  | .describe i services => (∀ c ∈ s.children, c.returncode = none) ∧
      services = (s.children.take i).map Child.registration
  | .publish r => r = ⟨s.epoch, s.children.map Child.registration⟩
  | _ => True

/-- The invariant. -/
structure Invariant (S : Setup) (s : System) : Prop extends Base S s where
  checked : ∀ stage, s.phase = .body stage → Checked s stage

theorem Base.toInvariant (h : Base S s) (hphase : ∀ stage, s.phase ≠ .body stage) : Invariant S s :=
  ⟨h, fun stage hstage => absurd hstage (hphase stage)⟩

theorem Base.toInvariant_body (h : Base S s) {stage : Stage} (hphase : s.phase = .body stage)
    (hchecked : Checked s stage) : Invariant S s := by
  refine ⟨h, fun stage' hstage => ?_⟩
  cases hphase.symm.trans hstage
  exact hchecked

/-- On to another stage. -/
theorem Base.onward (h : Base S s) {stage stage' : Stage} (hphase : s.phase = .body stage)
    (hpending : (Phase.body stage').pending = (Phase.body stage).pending)
    (hstage : Starting S.plan s stage')
    (hstarting : (Phase.body stage').starting = true → (Phase.body stage).starting = true)
    (hchecked : Checked s stage') : Invariant S (s.to (.body stage')) := by
  have hbase : Base S (s.to (.body stage')) := by
    refine h.to (hphase ▸ hpending) (fun i c hi => absurd hi (Nat.not_lt_zero i)) ?_ ?_
    · intro stage'' heq
      cases heq
      exact hstage
    · rw [hphase]
      exact hstarting
  refine hbase.toInvariant_body rfl ?_
  cases stage' <;> exact hchecked

theorem poll_eq_none (h : s.poll i = none) : s.children.length ≤ i := by
  unfold System.poll at h
  split at h
  · next hnone => exact List.getElem?_eq_none_iff.mp hnone
  · cases h

theorem Starting.congr {plan : Plan} {stage stage' : Stage} (h : Starting plan s stage)
    (hlaunched : stage'.unlaunched = stage.unlaunched) (hunready : stage'.unready = stage.unready) :
    Starting plan s stage' := by
  obtain ⟨hrun, hnames, hready⟩ := h
  rw [← hlaunched] at hnames
  rw [← hunready] at hready
  exact ⟨hrun, hnames, hready⟩

/-- The next job is ready. -/
theorem Starting.next {plan : Plan} {job : Job} {rest : List Job} {stage : Stage}
    (h : Starting plan s stage) (hlaunched : stage.unlaunched = rest)
    (hunready : stage.unready = job :: rest)
    (hready : job.awaited = true → job.name ∈ s.out.ready) :
    Starting plan s (.launch rest) := by
  obtain ⟨hrun, hnames, done, hdone, hall⟩ := h
  rw [hlaunched] at hnames
  rw [hunready] at hdone
  refine ⟨hrun, hnames, done ++ [job], ?_, ?_⟩
  · rw [hdone, List.append_assoc]
    rfl
  · intro job' hjob
    rw [List.mem_append, List.mem_singleton] at hjob
    rcases hjob with hjob | rfl
    · exact hall job' hjob
    · exact hready

/-- **A stage keeps the invariant.** -/
theorem Invariant.body (h : Invariant S s) {stage : Stage} (hphase : s.phase = .body stage)
    (hstep : bodyStep S.plan s stage = some s') : Invariant S s' := by
  have hleave : ∀ {s₁ : System} (_ : Base S s₁) (_ : s₁.phase = s.phase) (o : Outcome),
      s.phase.pending = none → Invariant S (s₁.leave o) := by
    intro s₁ h₁ hsame o hpending
    exact (h₁.leave (by rw [hsame]; exact hpending) o).toInvariant fun stage heq => by cases heq
  have hstarting := h.starting stage hphase
  have hchecked := h.checked stage hphase
  cases stage with
  | launch rest =>
    cases rest with
    | nil =>
      cases hstep
      split
      · exact h.onward hphase rfl (hstarting.congr rfl rfl) (fun _ => rfl)
          fun j c hj => absurd hj (Nat.not_lt_zero j)
      · exact hleave h.toBase rfl _ (by rw [hphase]; rfl)
    | cons job rest =>
      simp only [bodyStep] at hstep
      split at hstep
      · cases hstep
      · cases hstep
        exact hleave h.toBase rfl _ (by rw [hphase]; rfl)
  | launched job p rest =>
    cases hstep
    exact (h.append hphase).toInvariant_body rfl trivial
  | listed job rest =>
    cases hstep
    split
    · exact h.onward hphase rfl (hstarting.congr rfl rfl) (fun _ => rfl) trivial
    · next hnot =>
      have hnext := hstarting.next rfl rfl fun hawaited => absurd hawaited hnot
      exact h.onward hphase rfl hnext (fun _ => rfl) trivial
  | await job rest =>
    simp only [bodyStep] at hstep
    split at hstep
    · next hready =>
      cases hstep
      exact h.onward hphase rfl (hstarting.next rfl rfl fun _ => hready) (fun _ => rfl) trivial
    · cases hstep
  | scan job rest i =>
    simp only [bodyStep] at hstep
    split at hstep
    · cases hstep
      exact h.onward hphase rfl (hstarting.congr rfl rfl) (fun _ => rfl) trivial
    next s₁ c hpoll =>
    cases hstep
    obtain ⟨h₁, hP⟩ := h.polled hpoll
    have hsame : s₁.phase = s.phase := by rw [hP.eq]
    split
    · have hold := h₁.starting _ (hsame.trans hphase)
      exact h₁.onward (hsame.trans hphase) rfl (hold.congr rfl rfl) (fun _ => rfl) trivial
    · exact hleave h₁ hsame _ (by rw [hphase]; rfl)
  | own job rest => cases hstep
  | check i =>
    simp only [bodyStep] at hstep
    split at hstep
    · next hpoll =>
      cases hstep
      refine h.onward hphase rfl (hstarting.congr rfl rfl) (fun _ => rfl) ⟨fun c hc => ?_, rfl⟩
      obtain ⟨j, hj⟩ := List.mem_iff_getElem?.mp hc
      have hlt := (List.getElem?_eq_some_iff.mp hj).1
      exact hchecked j c (Nat.lt_of_lt_of_le hlt (poll_eq_none hpoll)) hj
    next s₁ c hpoll =>
    cases hstep
    obtain ⟨h₁, hP⟩ := h.polled hpoll
    have hsame : s₁.phase = s.phase := by rw [hP.eq]
    split
    · next hnone =>
      have hold := h₁.starting _ (hsame.trans hphase)
      refine h₁.onward (hsame.trans hphase) rfl (hold.congr rfl rfl) (fun _ => rfl) ?_
      intro j d hj hd
      rcases Nat.lt_succ_iff_lt_or_eq.mp hj with hlt | rfl
      · rw [hP.other j hlt.ne] at hd
        exact hchecked j d hlt hd
      · cases hP.self.symm.trans hd
        exact hnone
    split
    · exact hleave h₁ hsame _ (by rw [hphase]; rfl)
    · exact hleave h₁ hsame _ (by rw [hphase]; rfl)
  | describe i services =>
    obtain ⟨hnone, rfl⟩ := hchecked
    simp only [bodyStep] at hstep
    split at hstep
    · next hend =>
      cases hstep
      refine h.onward hphase rfl (hstarting.congr rfl rfl) (fun _ => rfl) ?_
      change Record.mk _ _ = ⟨_, _⟩
      rw [List.take_of_length_le (List.getElem?_eq_none_iff.mp hend)]
    next c hc =>
    cases hstep
    -- the child has not been waited for, so its number is its own
    have hmem := List.mem_of_getElem? hc
    obtain ⟨life, hlife⟩ := Option.ne_none_iff_exists'.mp
      ((h.owned.fate c hmem).mp (hnone c hmem))
    rw [ProcessTable.entry_of_life hlife]
    refine h.onward hphase rfl (hstarting.congr rfl rfl) (fun _ => rfl) ⟨hnone, ?_⟩
    rw [List.take_add_one, hc, List.map_append]
    rfl
  | publish r =>
    cases hpublishes : S.plan.publishes with
    | true =>
      have hwatch := h.publish hphase hchecked (S.plan.length r)
      simp only [bodyStep, hpublishes, if_true] at hstep
      cases hstep
      split
      · exact hwatch.toInvariant_body rfl trivial
      · exact (hwatch.leave rfl _).toInvariant fun stage heq => by cases heq
    | false =>
      simp only [bodyStep, hpublishes, Bool.false_eq_true, if_false] at hstep
      cases hstep
      split
      · exact h.onward hphase rfl (hstarting.congr rfl rfl) (fun _ => rfl) trivial
      · exact hleave h.toBase rfl _ (by rw [hphase]; rfl)
  | watch => cases hstep
  | survey i =>
    simp only [bodyStep] at hstep
    split at hstep
    · cases hstep
      exact h.onward hphase rfl (hstarting.congr rfl rfl) (fun hstart => hstart) trivial
    next s₁ c hpoll =>
    cases hstep
    obtain ⟨h₁, hP⟩ := h.polled hpoll
    have hsame : s₁.phase = s.phase := by rw [hP.eq]
    have hpending : s.phase.pending = none := by
      rw [hphase]
      rfl
    have hold := h₁.starting _ (hsame.trans hphase)
    have hnext : Invariant S (s₁.to (.body (.survey (i + 1)))) :=
      h₁.onward (hsame.trans hphase) rfl (hold.congr rfl rfl) (fun hstart => hstart) trivial
    split
    · exact hnext
    split
    · exact hleave h₁ hsame _ hpending
    split
    · exact hleave h₁ hsame _ hpending
    split
    · exact hleave h₁ hsame _ hpending
    · exact hnext

/-! ### The `finally` -/

/-- Out of the run, once all children have been waited for. -/
theorem Base.toSettled (h : Base S s) (hpending : s.phase.pending = none)
    (hall : ∀ (i : ℕ) (c : Child), s.children[i]? = some c → c.returncode ≠ none) {phase : Phase}
    (hphase : phase.tending = false) : Invariant S (s.to phase) := by
  obtain ⟨hnone, hstart, hbody⟩ := Phase.not_body_of_not_tending hphase
  refine Base.toInvariant ?_ hbody
  refine h.to (hnone.trans hpending.symm) (fun i c _ => hall i c)
    (fun stage heq => absurd heq (hbody stage)) fun htrue => ?_
  rw [hstart] at htrue
  cases htrue

/-- On, outside of a run. -/
theorem Base.rest (h : Base S s) (hphase : s.phase.tending = false) {phase : Phase}
    (hnext : phase.tending = false) : Invariant S (s.to phase) :=
  h.toSettled (Phase.not_body_of_not_tending hphase).1 (fun _ _ => h.all_settled hphase) hnext

/-- **A step of the `finally` keeps it.** -/
theorem Base.cleanup (h : Base S s) {step : Cleanup} {o : Outcome}
    (hphase : s.phase = .cleanup step o)
    (hstep : cleanupStep S.plan s o step = some s') : Invariant S s' := by
  have hpending : s.phase.pending = none := by
    rw [hphase]
    rfl
  have hon : ∀ {s₁ : System} {step' : Cleanup}, Base S s₁ → s₁.phase = s.phase →
      (∀ i c, i < (Phase.cleanup step' o).settled s₁.children.length → s₁.children[i]? = some c →
        c.returncode ≠ none) → Invariant S (s₁.to (.cleanup step' o)) := by
    intro s₁ step' h₁ hsame hsettled
    exact (h₁.toCleanup (by rw [hsame]; exact hpending) hsettled).toInvariant
      fun stage heq => by cases heq
  cases step with
  | terminate i =>
    simp only [cleanupStep] at hstep
    split at hstep
    · cases hstep
      exact hon h rfl fun j _ hj => absurd hj (Nat.not_lt_zero j)
    next s₁ c hpoll =>
    cases hstep
    obtain ⟨h₁, hP⟩ := h.polled hpoll
    have hsame : s₁.phase = s.phase := by rw [hP.eq]
    refine hon h₁ hsame fun j _ hj => absurd hj ?_
    split <;> exact Nat.not_lt_zero j
  | signalTerm i =>
    cases hstep
    obtain ⟨h₁, hsame, -⟩ := h.signal i
    exact hon h₁ hsame fun j _ hj => absurd hj (Nat.not_lt_zero j)
  | grace i =>
    simp only [cleanupStep] at hstep
    split at hstep
    · cases hstep
      exact hon h rfl fun j _ hj => absurd hj (Nat.not_lt_zero j)
    next s₁ c hpoll =>
    cases hstep
    obtain ⟨h₁, hP⟩ := h.polled hpoll
    have hsame : s₁.phase = s.phase := by rw [hP.eq]
    refine hon h₁ hsame fun j _ hj => absurd hj ?_
    split <;> exact Nat.not_lt_zero j
  | graceClock => cases hstep
  | graceDrain => cases hstep
  | reap i =>
    have hold := h.settled
    rw [hphase] at hold
    simp only [cleanupStep] at hstep
    split at hstep
    · next hpoll =>
      cases hstep
      refine h.toSettled hpending (fun j c hj => ?_) (by split <;> rfl)
      have hlt := (List.getElem?_eq_some_iff.mp hj).1
      exact hold j c (Nat.lt_of_lt_of_le hlt (poll_eq_none hpoll)) hj
    next s₁ c hpoll =>
    cases hstep
    obtain ⟨h₁, hP⟩ := h.polled hpoll
    have hsame : s₁.phase = s.phase := by rw [hP.eq]
    have hkept := h₁.settled
    rw [hsame, hphase] at hkept
    refine hon h₁ hsame fun j d hj => hkept j d ?_
    split at hj <;> exact hj
  | signalKill i =>
    cases hstep
    obtain ⟨h₁, hsame, -⟩ := h.signal i
    have hold := h₁.settled
    rw [hsame, hphase] at hold
    exact hon h₁ hsame hold
  | wait i =>
    simp only [cleanupStep] at hstep
    split at hstep
    · cases hstep
    next s₁ c hpoll =>
    obtain ⟨h₁, hP⟩ := h.polled hpoll
    have hsame : s₁.phase = s.phase := by rw [hP.eq]
    split at hstep
    · cases hstep
    next hsome =>
    cases hstep
    have hold := h₁.settled
    rw [hsame, hphase] at hold
    refine hon h₁ hsame fun j d hj hd => ?_
    rcases Nat.lt_succ_iff_lt_or_eq.mp hj with hlt | rfl
    · exact hold j d hlt hd
    · cases hP.self.symm.trans hd
      exact hsome
  | lookup =>
    cases hstep
    exact h.rest (by rw [hphase]; rfl) (by split <;> rfl)
  | read =>
    cases hstep
    exact h.rest (by rw [hphase]; rfl) (by split <;> rfl)
  | unlink =>
    cases hstep
    have hgone : ({ s with file := none } : System).phase.tending = false := by
      change s.phase.tending = false
      rw [hphase]
      rfl
    exact h.unlink.rest hgone rfl

/-! ### All steps -/

/-- An exception, where it does no harm. -/
theorem Base.fail (h : Base S s) (hsafe : s.phase.exposed = false) {e : Error} {phase : Phase}
    (hfail : s.phase.fail e = some phase) : Invariant S (s.to phase) := by
  cases hphase : s.phase with
  | begin =>
    rw [hphase] at hfail
    cases hfail
    exact h.rest (by rw [hphase]; rfl) rfl
  | body stage =>
    rw [hphase] at hfail hsafe
    cases hfail
    have hpending : s.phase.pending = none := by
      rw [hphase]
      cases stage <;> first | rfl | cases hsafe
    exact (h.leave hpending _).toInvariant fun stage heq => by cases heq
  | cleanup step o =>
    rw [hphase] at hfail hsafe
    -- only the file is left to look at
    have htending : s.phase.tending = false := by
      rw [hphase]
      cases step <;> first | rfl | cases hsafe
    refine h.rest htending ?_
    cases step <;> cases hfail <;> rfl
  | leaving o =>
    rw [hphase] at hfail
    cases hfail
    exact h.rest (by rw [hphase]; rfl) rfl
  | sleeping =>
    rw [hphase] at hfail
    cases hfail
    exact h.rest (by rw [hphase]; rfl) rfl
  | exited code =>
    rw [hphase] at hfail
    cases hfail

theorem Outcome.next_tending (o : Outcome) (attempt restarts : ℕ) :
    (o.next attempt restarts).tending = false := by
  unfold Outcome.next
  split <;> try rfl
  split <;> rfl

/-- **A step of the supervisor keeps it.** -/
theorem Invariant.supervise (h : Invariant S s) {move : Move S.plan.config}
    (hsafe : ∀ e, move = .fail e → s.phase.exposed = false)
    (hstep : Supervise.supervise S.plan S.taken s move = some s') : Invariant S s' := by
  cases move with
  | begin epoch =>
    simp only [Supervise.supervise] at hstep
    split at hstep
    · next hphase =>
      split at hstep
      · next hnew =>
        cases hstep
        exact (h.begin hphase hnew.1 hnew.2).toInvariant_body rfl trivial
      · cases hstep
    · cases hstep
  | go =>
    simp only [Supervise.supervise] at hstep
    split at hstep
    · next stage hphase => exact h.body hphase hstep
    · next step o hphase => exact h.cleanup hphase hstep
    · next o hphase =>
      cases hstep
      exact h.rest (by rw [hphase]; rfl) (o.next_tending _ _)
    · next hphase =>
      cases hstep
      exact (h.frame (s.attempt + 1) s.handler s.requests).rest
        (by change s.phase.tending = false; rw [hphase]; rfl) rfl
    · cases hstep
  | popen p =>
    simp only [Supervise.supervise] at hstep
    split at hstep
    · next job rest hphase =>
      split at hstep
      · obtain ⟨T, hspawn, rfl⟩ := Option.map_eq_some_iff.mp hstep
        exact (h.popen hphase hspawn).toInvariant_body rfl trivial
      · cases hstep
    · cases hstep
  | drain chunks =>
    simp only [Supervise.supervise] at hstep
    have hdrained := h.drained (ready_subset_drainAll s.out chunks)
    split at hstep
    · split at hstep
      · next job rest hphase =>
        split at hstep
        · cases hstep
        · cases hstep
          have hold := hdrained.starting _ hphase
          exact hdrained.onward hphase rfl (hold.congr rfl rfl) (fun _ => rfl) trivial
      · next hphase =>
        cases hstep
        have hold := hdrained.starting _ hphase
        exact hdrained.onward hphase rfl (hold.congr rfl rfl) (fun hstart => hstart) trivial
      · next o hphase =>
        cases hstep
        have hpending : s.phase.pending = none := by
          rw [hphase]
          rfl
        have hgrace : Base S (System.to { s with out := drainAll s.out chunks }
            (.cleanup (.grace 0) o)) :=
          hdrained.toCleanup hpending fun j _ hj => absurd hj (Nat.not_lt_zero j)
        exact hgrace.toInvariant fun stage heq => by cases heq
      · cases hstep
    · cases hstep
  | clock late =>
    simp only [Supervise.supervise] at hstep
    split at hstep
    · next job rest hphase =>
      split at hstep
      · cases hstep
      next s₁ c hpoll =>
      cases hstep
      obtain ⟨h₁, hP⟩ := h.polled hpoll
      have hsame : s₁.phase = .body (.own job rest) := by
        rw [hP.eq]
        exact hphase
      split
      · exact (h₁.leave (by rw [hsame]; rfl) _).toInvariant fun stage heq => by cases heq
      · have hold := h₁.starting _ hsame
        exact h₁.onward hsame rfl (hold.congr rfl rfl) (fun _ => rfl) trivial
    · next o hphase =>
      cases hstep
      refine (h.toCleanup (by rw [hphase]; rfl) fun j _ hj => ?_).toInvariant
        fun stage heq => by cases heq
      split at hj <;> exact absurd hj (Nat.not_lt_zero j)
    · cases hstep
  | fail e =>
    obtain ⟨phase, hfail, rfl⟩ := Option.map_eq_some_iff.mp hstep
    exact h.fail (hsafe e rfl) hfail

theorem Invariant.frame (h : Invariant S s) (handler : Handler) (requests : ℕ) :
    Invariant S { s with
      handler := handler
      requests := requests } := by
  refine ⟨h.toBase.frame s.attempt handler requests, fun stage hstage => ?_⟩
  have hold := h.checked stage hstage
  cases stage <;> exact hold

/-- The server changes nothing but its own state. -/
theorem serve_eq (h : serve s = some s') : ∃ handler, s' = { s with handler := handler } := by
  unfold serve at h
  split at h
  · cases h
  · cases h
    exact ⟨_, rfl⟩
  · cases h
    exact ⟨_, rfl⟩
  · cases h
    exact ⟨_, rfl⟩
  · cases h

/-- **Every step keeps it.** -/
theorem Invariant.step (h : Invariant S s) {a : Action S.plan.config}
    (hstep : S.orderly.step s a = some s') : Invariant S s' := by
  obtain ⟨hsafe, hmove⟩ := Machine.only_step hstep
  clear hstep
  change System.step S s a = some s' at hmove
  cases a with
  | spawn p =>
    obtain ⟨T, hspawn, rfl⟩ := Option.map_eq_some_iff.mp hmove
    obtain ⟨-, hnew, -, -, hother⟩ := ProcessTable.spawn_eq hspawn
    refine ⟨h.world (ProcessTable.spawn_later hspawn) fun x hx => ?_, fun stage hstage => ?_⟩
    · unfold ProcessTable.Present
      rw [hother x.2 fun heq => hnew (heq ▸ h.owned.used x hx)]
    · have hold := h.checked stage hstage
      cases stage <;> exact hold
  | exit p code =>
    obtain ⟨T, hexit, rfl⟩ := Option.map_eq_some_iff.mp hmove
    obtain ⟨halive, -, hself, hother⟩ := ProcessTable.exit_eq hexit
    refine ⟨h.world (ProcessTable.exit_later hexit) fun x hx => ?_, fun stage hstage => ?_⟩
    · by_cases heq : x.2 = p
      · rw [heq]
        refine ⟨fun _ => halive.present, fun _ => ?_⟩
        rw [ProcessTable.Present, hself]
        exact Option.some_ne_none _
      · unfold ProcessTable.Present
        rw [hother x.2 heq]
    · have hold := h.checked stage hstage
      cases stage <;> exact hold
  | bury p =>
    simp only [System.step] at hmove
    split at hmove
    · next hother =>
      cases hmove
      refine ⟨h.world (ProcessTable.bury_later _ _) fun x hx => ?_, fun stage hstage => ?_⟩
      · have hne : x.2 ≠ p := fun heq => hother.1 (List.mem_map.mpr ⟨x, hx, heq⟩)
        unfold ProcessTable.Present
        rw [ProcessTable.life_bury_of_ne hne]
      · have hold := h.checked stage hstage
        cases stage <;> exact hold
    · cases hmove
  | supervise move =>
    refine h.supervise (fun e he => ?_) hmove
    subst he
    exact Bool.not_eq_true' _ ▸ hsafe
  | request found =>
    simp only [System.step] at hmove
    split at hmove
    · cases hmove
    · cases hmove
    · cases hmove
      exact h.frame _ _
  | serve =>
    obtain ⟨handler, rfl⟩ := serve_eq hmove
    exact h.frame handler s.requests

theorem Setup.invariant_start (S : Setup) : Invariant S S.orderly.start := by
  refine Base.toInvariant ⟨⟨?_, ?_, ?_, ?_, ?_, ?_, ?_⟩, ?_, ?_, ?_, ?_⟩ fun stage heq => ?_
  · exact fun x hx => absurd hx List.not_mem_nil
  · exact fun c hc => absurd hc List.not_mem_nil
  · exact fun c hc => absurd hc List.not_mem_nil
  · exact List.nodup_nil
  · exact fun p hp => by cases hp
  · exact fun x hx => absurd hx List.not_mem_nil
  · exact fun p hp => absurd hp List.not_mem_nil
  · exact fun i c hi => absurd hi (Nat.not_lt_zero i)
  · exact fun stage heq => by cases heq
  · intro r hr
    refine ⟨S.registered r hr, .inl ?_, fun hrun => absurd hrun List.not_mem_nil⟩
    have hfile : S.file.bind Content.value = some r := hr
    rw [Setup.taken, hfile]
    exact List.mem_singleton_self _
  · exact fun e he => absurd he List.not_mem_nil
  · cases heq

/-- **The invariant holds in every state that is reached.** -/
theorem Setup.invariant (S : Setup) (h : S.orderly.Reachable s) : Invariant S s :=
  Machine.Reachable.invariant S.invariant_start (fun hinv hstep => hinv.step hstep) h

/-! ### What a step leaves as it is -/

/-- The supervisor does nothing to the server, and to processes what anyone may do. -/
structure Kept (s s' : System) : Prop where
  later : s.table.Later s'.table
  handler : s'.handler = s.handler
  requests : s'.requests = s.requests

/-- It is in the same call of `run`. -/
structure Within (s s' : System) : Prop extends Kept s s' where
  attempt : s'.attempt = s.attempt
  runs : s'.runs = s.runs

theorem Within.refl (s : System) : Within s s := ⟨⟨.refl _, rfl, rfl⟩, rfl, rfl⟩

theorem Within.to (h : Within s s') (phase : Phase) : Within s (s'.to phase) :=
  ⟨⟨h.later, h.handler, h.requests⟩, h.attempt, h.runs⟩

theorem poll_within (h : s.poll i = some (s', c)) : Within s s' := by
  unfold System.poll at h
  split at h
  · cases h
  next d hd =>
  obtain ⟨rfl, rfl⟩ := Prod.mk.inj (Option.some.inj h)
  exact ⟨⟨poll_later s.table d, rfl, rfl⟩, rfl, rfl⟩

theorem sendSignal_within (s : System) (i : ℕ) : Within s (s.sendSignal i) := by
  unfold System.sendSignal
  split
  · exact .refl s
  next s₁ c hpoll =>
  have h₁ := poll_within hpoll
  split
  · unfold System.kill
    split
    · exact ⟨⟨h₁.later, h₁.handler, h₁.requests⟩, h₁.attempt, h₁.runs⟩
    · exact h₁
  · exact h₁

/-- `run` is to be called. -/
def Phase.between : Phase → Bool
  | .begin => true
  | .sleeping => true
  | _ => false

theorem bodyStep_within {plan : Plan} {stage : Stage} (h : bodyStep plan s stage = some s') :
    Within s s' ∧ s'.phase.between = false := by
  have hrefl := Within.refl s
  cases stage with
  | launch rest =>
    cases rest with
    | nil =>
      cases h
      split
      · exact ⟨hrefl.to _, rfl⟩
      · exact ⟨hrefl.to _, rfl⟩
    | cons job rest =>
      simp only [bodyStep] at h
      split at h
      · cases h
      · cases h
        exact ⟨hrefl.to _, rfl⟩
  | launched job p rest =>
    cases h
    exact ⟨⟨⟨.refl _, rfl, rfl⟩, rfl, rfl⟩, rfl⟩
  | listed job rest =>
    cases h
    exact ⟨hrefl.to _, rfl⟩
  | await job rest =>
    simp only [bodyStep] at h
    split at h
    · cases h
      exact ⟨hrefl.to _, rfl⟩
    · cases h
  | scan job rest i =>
    simp only [bodyStep] at h
    split at h
    · cases h
      exact ⟨hrefl.to _, rfl⟩
    next hpoll =>
    cases h
    split
    · exact ⟨(poll_within hpoll).to _, rfl⟩
    · exact ⟨(poll_within hpoll).to _, rfl⟩
  | own job rest => cases h
  | check i =>
    simp only [bodyStep] at h
    split at h
    · cases h
      exact ⟨hrefl.to _, rfl⟩
    next hpoll =>
    cases h
    split
    · exact ⟨(poll_within hpoll).to _, rfl⟩
    split
    · exact ⟨(poll_within hpoll).to _, rfl⟩
    · exact ⟨(poll_within hpoll).to _, rfl⟩
  | describe i services =>
    simp only [bodyStep] at h
    split at h
    · cases h
      exact ⟨hrefl.to _, rfl⟩
    cases h
    split
    · exact ⟨hrefl.to _, rfl⟩
    · exact ⟨hrefl.to _, rfl⟩
  | publish r =>
    have hfile : Within s (if plan.publishes then { s with file := some ⟨plan.length r, some r⟩ }
        else s) := by
      split
      · exact ⟨⟨.refl _, rfl, rfl⟩, rfl, rfl⟩
      · exact hrefl
    cases h
    split
    · exact ⟨hfile.to _, rfl⟩
    · exact ⟨hfile.to _, rfl⟩
  | watch => cases h
  | survey i =>
    simp only [bodyStep] at h
    split at h
    · cases h
      exact ⟨hrefl.to _, rfl⟩
    next hpoll =>
    cases h
    have h₁ := poll_within hpoll
    split
    · exact ⟨h₁.to _, rfl⟩
    split
    · exact ⟨h₁.to _, rfl⟩
    split
    · exact ⟨h₁.to _, rfl⟩
    split
    · exact ⟨h₁.to _, rfl⟩
    · exact ⟨h₁.to _, rfl⟩

theorem cleanupStep_within {plan : Plan} {o : Outcome} {step : Cleanup}
    (h : cleanupStep plan s o step = some s') : Within s s' ∧ s'.phase.between = false := by
  have hrefl := Within.refl s
  cases step with
  | terminate i =>
    simp only [cleanupStep] at h
    split at h
    · cases h
      exact ⟨hrefl.to _, rfl⟩
    next hpoll =>
    cases h
    exact ⟨(poll_within hpoll).to _, rfl⟩
  | signalTerm i =>
    cases h
    exact ⟨(sendSignal_within s i).to _, rfl⟩
  | grace i =>
    simp only [cleanupStep] at h
    split at h
    · cases h
      exact ⟨hrefl.to _, rfl⟩
    next hpoll =>
    cases h
    exact ⟨(poll_within hpoll).to _, rfl⟩
  | graceClock => cases h
  | graceDrain => cases h
  | reap i =>
    simp only [cleanupStep] at h
    split at h
    · cases h
      exact ⟨hrefl.to _, by split <;> rfl⟩
    next hpoll =>
    cases h
    exact ⟨(poll_within hpoll).to _, rfl⟩
  | signalKill i =>
    cases h
    exact ⟨(sendSignal_within s i).to _, rfl⟩
  | wait i =>
    simp only [cleanupStep] at h
    split at h
    · cases h
    next hpoll =>
    split at h
    · cases h
    · cases h
      exact ⟨(poll_within hpoll).to _, rfl⟩
  | lookup =>
    cases h
    exact ⟨hrefl.to _, by split <;> rfl⟩
  | read =>
    cases h
    exact ⟨hrefl.to _, by split <;> rfl⟩
  | unlink =>
    cases h
    exact ⟨⟨⟨.refl _, rfl, rfl⟩, rfl, rfl⟩, rfl⟩

/-- The group is started as often as `main` has attempts. -/
structure Counted (plan : Plan) (s : System) : Prop where
  attempt : s.attempt ≤ plan.restarts
  sleeping : s.phase = .sleeping → s.attempt < plan.restarts
  runs : s.runs.length ≤ s.attempt + 1
  begin : s.phase = .begin → s.runs.length ≤ s.attempt

/-- Within a call of `run`. -/
theorem Counted.within {plan : Plan} (h : Counted plan s) (hs : Within s s')
    (hphase : s'.phase.between = false) : Counted plan s' where
  attempt := hs.attempt ▸ h.attempt
  sleeping heq := by
    rw [heq] at hphase
    cases hphase
  runs := hs.attempt ▸ hs.runs ▸ h.runs
  begin heq := by
    rw [heq] at hphase
    cases hphase

/-- After `run`. -/
theorem Counted.next {plan : Plan} (h : Counted plan s) (o : Outcome) :
    Counted plan (s.to (o.next s.attempt plan.restarts)) := by
  refine ⟨h.attempt, fun hsleep => ?_, h.runs, fun hbegin => ?_⟩
  · have hne : s.attempt ≠ plan.restarts := by
      intro heq
      change o.next s.attempt plan.restarts = .sleeping at hsleep
      rw [heq] at hsleep
      unfold Outcome.next at hsleep
      split at hsleep
      · cases hsleep
      · cases hsleep
      · cases hsleep
      · rw [if_pos rfl] at hsleep
        cases hsleep
    exact lt_of_le_of_ne h.attempt hne
  · change o.next s.attempt plan.restarts = .begin at hbegin
    unfold Outcome.next at hbegin
    split at hbegin
    · cases hbegin
    · cases hbegin
    · cases hbegin
    · split at hbegin
      · cases hbegin
      · cases hbegin

theorem Phase.fail_between {phase phase' : Phase} {e : Error} (h : phase.fail e = some phase') :
    phase'.between = false := by
  unfold Phase.fail at h
  split at h <;> cases h <;> rfl

/-- A step of the supervisor. -/
theorem supervise_kept {plan : Plan} {taken : List ℕ} {move : Move plan.config}
    (h : supervise plan taken s move = some s') :
    Kept s s' ∧ (Counted plan s → Counted plan s') := by
  have hrefl := Within.refl s
  have hwithin : Within s s' → s'.phase.between = false →
      Kept s s' ∧ (Counted plan s → Counted plan s') :=
    fun hs hphase => ⟨hs.toKept, fun hcount => hcount.within hs hphase⟩
  cases move with
  | begin epoch =>
    simp only [supervise] at h
    split at h
    · next hphase =>
      split at h
      · cases h
        refine ⟨⟨.refl _, rfl, rfl⟩,
          fun hcount => ⟨hcount.attempt, fun heq => ?_, ?_, fun heq => ?_⟩⟩
        · cases heq
        · exact Nat.succ_le_succ (hcount.begin hphase)
        · cases heq
      · cases h
    · cases h
  | go =>
    simp only [supervise] at h
    split at h
    · obtain ⟨hs, hphase⟩ := bodyStep_within h
      exact hwithin hs hphase
    · obtain ⟨hs, hphase⟩ := cleanupStep_within h
      exact hwithin hs hphase
    · next o _ =>
      cases h
      exact ⟨(hrefl.to _).toKept, fun hcount => hcount.next o⟩
    · next hphase =>
      cases h
      refine ⟨⟨.refl _, rfl, rfl⟩,
        fun hcount => ⟨hcount.sleeping hphase, fun heq => ?_, ?_, fun _ => ?_⟩⟩
      · cases heq
      · exact hcount.runs.trans (Nat.le_succ _)
      · exact hcount.runs
    · cases h
  | popen p =>
    simp only [supervise] at h
    split at h
    · split at h
      · obtain ⟨T, hspawn, rfl⟩ := Option.map_eq_some_iff.mp h
        exact hwithin ⟨⟨ProcessTable.spawn_later hspawn, rfl, rfl⟩, rfl, rfl⟩ rfl
      · cases h
    · cases h
  | drain chunks =>
    simp only [supervise] at h
    split at h
    · split at h
      · split at h
        · cases h
        · cases h
          exact hwithin ⟨⟨.refl _, rfl, rfl⟩, rfl, rfl⟩ rfl
      · cases h
        exact hwithin ⟨⟨.refl _, rfl, rfl⟩, rfl, rfl⟩ rfl
      · cases h
        exact hwithin ⟨⟨.refl _, rfl, rfl⟩, rfl, rfl⟩ rfl
      · cases h
    · cases h
  | clock late =>
    simp only [supervise] at h
    split at h
    · split at h
      · cases h
      next hpoll =>
      have h₁ := poll_within hpoll
      split at h
      · cases h
        exact hwithin (h₁.to _) rfl
      · cases h
        exact hwithin (h₁.to _) rfl
    · cases h
      exact hwithin (hrefl.to _) rfl
    · cases h
  | fail e =>
    obtain ⟨phase, hfail, rfl⟩ := Option.map_eq_some_iff.mp h
    exact ⟨(hrefl.to _).toKept, fun hcount => hcount.within (hrefl.to _) (Phase.fail_between hfail)⟩

/-- **What any step leaves as it is.** -/
theorem step_kept {a : Action S.plan.config} (h : System.step S s a = some s') :
    s.table.Later s'.table ∧ (Counted S.plan s → Counted S.plan s') := by
  cases a with
  | spawn p =>
    obtain ⟨T, hspawn, rfl⟩ := Option.map_eq_some_iff.mp h
    exact ⟨ProcessTable.spawn_later hspawn, fun hcount => ⟨hcount.1, hcount.2, hcount.3, hcount.4⟩⟩
  | exit p code =>
    obtain ⟨T, hexit, rfl⟩ := Option.map_eq_some_iff.mp h
    exact ⟨ProcessTable.exit_later hexit, fun hcount => ⟨hcount.1, hcount.2, hcount.3, hcount.4⟩⟩
  | bury p =>
    simp only [System.step] at h
    split at h
    · cases h
      exact ⟨ProcessTable.bury_later _ _, fun hcount => ⟨hcount.1, hcount.2, hcount.3, hcount.4⟩⟩
    · cases h
  | supervise move =>
    obtain ⟨hkept, hcount⟩ := supervise_kept h
    exact ⟨hkept.later, hcount⟩
  | request found =>
    simp only [System.step] at h
    split at h
    · cases h
    · cases h
    · cases h
      exact ⟨.refl _, fun hcount => ⟨hcount.1, hcount.2, hcount.3, hcount.4⟩⟩
  | serve =>
    obtain ⟨handler, rfl⟩ := serve_eq h
    exact ⟨.refl _, fun hcount => ⟨hcount.1, hcount.2, hcount.3, hcount.4⟩⟩

theorem Setup.counted (S : Setup) (h : S.orderly.Reachable s) : Counted S.plan s := by
  refine Machine.Reachable.invariant ?_ ?_ h
  · exact ⟨Nat.zero_le _, fun heq => (by cases heq), Nat.zero_le _, fun _ => Nat.le_refl _⟩
  · intro s a s' hcount hstep
    exact (step_kept (Machine.only_step hstep).2).2 hcount

/-! ### One group at a time -/

/-- One service, and one restart. -/
def worker : Plan where
  jobs := [⟨⟨"worker", none⟩, some ["worker"]⟩]
  size := ⟨Nat.le_refl 1, Nat.le_add_left 1 63⟩
  unique := List.nodup_singleton _
  completion := none
  restarts := 1
  publishes := true
  length := fun r => r.services.length

/-- Nothing there before. -/
def workerSetup : Setup where
  plan := worker
  table := .empty
  file := none
  registered := fun r hr => by cases hr

/-- The supervisor goes on for some steps. -/
def goes (n : ℕ) : List (Action workerSetup.plan.config) := List.replicate n (.supervise .go)

/-- A signal to stop that comes between `Popen` and `append`. -/
def stoppedAtLaunch : List (Action workerSetup.plan.config) :=
  [.supervise (.begin 1), .supervise (.popen ⟨7, 100⟩), .supervise (.fail .interrupt)] ++ goes 5

/-- What `main` has exited with. -/
def Phase.exitCode : Phase → Option ℕ
  | .exited code => some code
  | _ => none

/-- **An exception between `Popen` and `append` leaves a service behind**: `main` has ended and it
runs on. -/
theorem interrupted_launch_leaks :
    (workerSetup.machine.run workerSetup.machine.start stoppedAtLaunch).map
      (fun s => (s.phase.exitCode, decide (s.table.Alive ⟨7, 100⟩))) = some (some 130, true) := by
  decide +kernel

end Supervise
end PulseFanout
