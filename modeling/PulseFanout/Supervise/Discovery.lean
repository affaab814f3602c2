import PulseFanout.Supervise.Restart

/-!
# What the discovery server answers

`do_GET` reads the state file once and then looks at the processes it lists one after the other.
Between two looks anything may happen: a process it has looked at exits, the supervisor cleans up
and starts its group again, a number goes to another process. Still an answer is a snapshot
(`answers_consistent`): a process that is seen running, and was started before the file was read,
was running at that time, and this holds for all of them at once. The time of the start in the file
is what makes a process the one that was listed.

Since no process of a run is left when the run is over, such an answer is about the current run of
the supervisor, also if the file of an earlier run could not be removed.
-/

namespace PulseFanout
namespace Supervise

open Framework

variable {S : Setup} {s s' : System} {r : Record} {checked : List Registration}
  {actions : List (Action S.plan.config)}

/-- The file was read in this request, and some of what it lists was running then. -/
def Snapshot (S : Setup) (actions : List (Action S.plan.config)) (s : System) (r : Record)
    (checked : List Registration) : Prop :=
  ∃ before after s₁, actions = before ++ after ∧
    S.orderly.run S.orderly.start before = some s₁ ∧ S.orderly.run s₁ after = some s ∧
    s₁.handler = .reading ∧ s₁.requests = s.requests ∧ s₁.record = some r ∧
    ∀ v ∈ checked, s₁.table.Alive v.process

/-- What the server has found. -/
structure Found (S : Setup) (actions : List (Action S.plan.config)) (s : System) : Prop where
  checking : ∀ r rest, s.handler = .checking r rest →
    ∃ checked, r.services = checked ++ rest ∧ Snapshot S actions s r checked
  answered : ∀ r, s.handler = .answered (.ok r) → Snapshot S actions s r r.services

/-- One more step in the same request. -/
theorem Snapshot.extend (h : Snapshot S actions s r checked) {a : Action S.plan.config}
    (hstep : S.orderly.step s a = some s') (hrequests : s'.requests = s.requests) :
    Snapshot S (actions ++ [a]) s' r checked := by
  obtain ⟨before, after, s₁, rfl, hbefore, hafter, hreading, hsame, hrecord, halive⟩ := h
  refine ⟨before, after ++ [a], s₁, List.append_assoc _ _ _, hbefore, ?_, hreading,
    hsame.trans hrequests.symm, hrecord, halive⟩
  rw [Machine.run_append, hafter]
  change (S.orderly.step s a).bind _ = _
  rw [hstep]
  rfl

/-- Along a run, no process comes back. -/
theorem run_later {s₁ : System} {after : List (Action S.plan.config)}
    (h : S.orderly.run s₁ after = some s) : s₁.table.Later s.table := by
  refine Machine.run_invariant (P := fun s => s₁.table.Later s.table) ?_ (.refl _) h
  intro s a s' hlater hstep
  exact hlater.trans (step_kept (Machine.only_step hstep).2).1

/-- **A process that is seen running now was running when the file was read.** -/
theorem Snapshot.look (h : Snapshot S actions s r checked) {v : Registration} (hv : v ∈ r.services)
    (halive : s.table.Alive v.process) : Snapshot S actions s r (checked ++ [v]) := by
  obtain ⟨before, after, s₁, hsplit, hbefore, hafter, hreading, hsame, hrecord, hall⟩ := h
  refine ⟨before, after, s₁, hsplit, hbefore, hafter, hreading, hsame, hrecord, fun w hw => ?_⟩
  rw [List.mem_append, List.mem_singleton] at hw
  rcases hw with hw | rfl
  · exact hall w hw
  · have hused := ((S.invariant ⟨before, hbefore⟩).filed r hrecord).used w hv
    exact (run_later hafter).alive hused halive

/-- Steps of others do not concern the request. -/
theorem Found.keep (h : Found S actions s) {a : Action S.plan.config}
    (hstep : S.orderly.step s a = some s') (hhandler : s'.handler = s.handler)
    (hrequests : s'.requests = s.requests) : Found S (actions ++ [a]) s' where
  checking r rest hchecking := by
    obtain ⟨checked, hsplit, hseen⟩ := h.checking r rest (hhandler ▸ hchecking)
    exact ⟨checked, hsplit, hseen.extend hstep hrequests⟩
  answered r hanswered := (h.answered r (hhandler ▸ hanswered)).extend hstep hrequests

/-- Steps of the server. -/
theorem Found.serve (h : Found S actions s)
    (hrun : S.orderly.run S.orderly.start actions = some s)
    (hstep : S.orderly.step s .serve = some s') : Found S (actions ++ [.serve]) s' := by
  have hmove : Supervise.serve s = some s' := (Machine.only_step hstep).2
  have hrequests : s'.requests = s.requests := by
    obtain ⟨handler, rfl⟩ := serve_eq hmove
    rfl
  unfold Supervise.serve at hmove
  split at hmove
  · cases hmove
  · next hreading =>
    have hhandler := congrArg System.handler (Option.some.inj hmove)
    refine ⟨fun r rest heq => ?_, fun r heq => ?_⟩
    · rw [← hhandler] at heq
      dsimp only at heq
      split at heq
      · cases heq
      next content hfile =>
      split at heq
      · cases heq
      split at heq
      · cases heq
      next r' hvalue =>
      cases heq
      -- this is where the file is read
      refine ⟨[], rfl, actions, [.serve], s, rfl, hrun, ?_, hreading, hrequests.symm, ?_,
        fun v hv => absurd hv List.not_mem_nil⟩
      · rw [Machine.run_cons, hstep]
        rfl
      · rw [System.record, hfile]
        exact hvalue
    · rw [← hhandler] at heq
      dsimp only at heq
      split at heq
      · cases heq
      split at heq
      · cases heq
      split at heq
      · cases heq
      · cases heq
  · next r hchecking =>
    cases hmove
    obtain ⟨checked, hsplit, hseen⟩ := h.checking r [] hchecking
    rw [List.append_nil] at hsplit
    refine ⟨fun r' rest heq => ?_, fun r' heq => ?_⟩
    · cases heq
    · cases heq
      rw [hsplit]
      exact hseen.extend hstep hrequests
  · next r v rest hchecking =>
    have hhandler := congrArg System.handler (Option.some.inj hmove)
    obtain ⟨checked, hsplit, hseen⟩ := h.checking r (v :: rest) hchecking
    have hv : v ∈ r.services := by
      rw [hsplit]
      exact List.mem_append_right _ List.mem_cons_self
    refine ⟨fun r' rest' heq => ?_, fun r' heq => ?_⟩
    · rw [← hhandler] at heq
      dsimp only at heq
      split at heq
      · next start hentry =>
        split at heq
        · next hstart =>
          cases heq
          have halive : s.table.Alive v.process := by
            refine ProcessTable.life_of_entry ?_
            rw [hstart] at hentry
            exact hentry
          refine ⟨checked ++ [v], ?_, (hseen.look hv halive).extend hstep hrequests⟩
          rw [hsplit, List.append_assoc]
          rfl
        · cases heq
      · cases heq
    · rw [← hhandler] at heq
      dsimp only at heq
      split at heq
      · split at heq
        · cases heq
        · cases heq
      · cases heq
  · cases hmove

theorem Found.step (h : Found S actions s) (hrun : S.orderly.run S.orderly.start actions = some s)
    {a : Action S.plan.config} (hstep : S.orderly.step s a = some s') :
    Found S (actions ++ [a]) s' := by
  have hmove : System.step S s a = some s' := (Machine.only_step hstep).2
  cases a with
  | spawn p =>
    obtain ⟨T, -, rfl⟩ := Option.map_eq_some_iff.mp hmove
    exact h.keep hstep rfl rfl
  | exit p code =>
    obtain ⟨T, -, rfl⟩ := Option.map_eq_some_iff.mp hmove
    exact h.keep hstep rfl rfl
  | bury p =>
    simp only [System.step] at hmove
    split at hmove
    · cases hmove
      exact h.keep hstep rfl rfl
    · cases hmove
  | supervise move =>
    obtain ⟨hkept, -⟩ := supervise_kept hmove
    exact h.keep hstep hkept.handler hkept.requests
  | request found =>
    simp only [System.step] at hmove
    split at hmove
    · cases hmove
    · cases hmove
    · cases hmove
      cases found
      · refine ⟨fun r rest heq => ?_, fun r heq => ?_⟩
        · cases heq
        · cases heq
      · refine ⟨fun r rest heq => ?_, fun r heq => ?_⟩
        · cases heq
        · cases heq
  | serve => exact h.serve hrun hstep

end Supervise
end PulseFanout
