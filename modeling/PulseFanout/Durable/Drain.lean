import PulseFanout.Durable.Safety

/-!
# When `send` returns

`transmit` leaves its loop when `store.first()` has returned `None` and `ingress_done` is set,
in this order. Between the two the main thread can enqueue a frame and set the flag, so
`send` can return without an error while a row is left in the outbox
(`returns_with_row_pending`). This is the only way: in a run without this race `send` returns
drained (`returns_drained_unless_raced`), and `drained_iff` says the same with `raced`, the
history of where `transmit` stood when the flag was set.

`DrainInv` follows the two threads. Its clauses say why each of them is where it is: `stop` is
set by a failure or by the end of `send`; `transmit` is out of its loop after a failure, after
`send` has raised, or because it found the flag set.
-/

namespace PulseFanout
namespace Durable

open Framework

/-- `transmit` is out of its loop. -/
def TransmitPc.Left : TransmitPc → Prop
  | .closing | .finished => True
  | _ => False

/-- What holds of the two threads of `send`. -/
structure DrainInv (R : SendRelay) : Prop where
  ingress : R.main = .ingress → R.ingressDone = false
  stop : R.stop → R.failures ≠ 0 ∨ R.main = .raised ∨ R.main = .returned
  /-- When the flag is set and `transmit` is about to see it, the outbox is still as it was
  when `transmit` looked, unless there was a race. -/
  idle : R.ingressDone → R.raced = false → R.transmit = .idle → R.outbox.pending = []
  left : R.transmit.Left → R.failures ≠ 0 ∨ R.main = .raised ∨
    R.ingressDone ∧ (R.raced = false → R.outbox.pending = [])
  /-- After a race `transmit` does not look at the outbox again. -/
  raced : R.raced → R.ingressDone ∧ R.outbox.pending ≠ [] ∧
    (R.transmit = .idle ∨ R.transmit.Left)
  returned : R.main = .returned → R.failures = 0 ∧ R.transmit = .finished

namespace DrainInv

variable {R R' : SendRelay} {conns conns' : List Conn}

/-- A new process. -/
theorem fresh (outbox : Store Session) (enqueued : List (Row Session)) :
    DrainInv { outbox, enqueued } where
  ingress := fun _ => rfl
  stop := nofun
  idle := nofun
  left := nofun
  raced := nofun
  returned := nofun

/-- The main thread leaves `ingress` or `draining` for good. -/
theorem ended (h : DrainInv R) {main : MainPc} (hold : R.main ≠ .raised)
    (hmain : main = .raised ∨ main = .returned ∧ R.failures = 0 ∧ R.transmit = .finished) :
    DrainInv { R with main, stop := true } where
  ingress := by
    rintro rfl
    rcases hmain with hmain | ⟨hmain, -⟩ <;> cases hmain
  stop := fun _ => Or.inr (hmain.imp_right fun hret => hret.1)
  idle := h.idle
  left := fun hleft => by
    rcases h.left hleft with hfail | hraised | hdone
    · exact Or.inl hfail
    · exact absurd hraised hold
    · exact Or.inr (Or.inr hdone)
  raced := h.raced
  returned := by
    rintro rfl
    rcases hmain with hmain | ⟨-, hret⟩
    · cases hmain
    · exact hret

/-- While the flag is not set, `transmit` leaves its loop only after a failure or a raise. -/
theorem left_unset (h : DrainInv R) (hdone : R.ingressDone = false) (hleft : R.transmit.Left) :
    R.failures ≠ 0 ∨ R.main = .raised := by
  rcases h.left hleft with hfail | hraised | ⟨hset, -⟩
  · exact Or.inl hfail
  · exact Or.inr hraised
  · rw [hdone] at hset
    cases hset

/-- **The main thread.** -/
theorem stepMain (h : DrainInv R) {a : MainAction} (hstep : R.stepMain a = some R') :
    DrainInv R' := by
  cases SendRelay.stepMain_cases hstep with
  | refused => exact h
  | enqueued hmain =>
    have hdone := h.ingress hmain
    -- the flag is not set, so nothing was said about the outbox
    refine ⟨h.ingress, h.stop, fun hset => ?_, fun hleft => ?_, fun hraced => ?_, h.returned⟩
    · rw [hdone] at hset
      cases hset
    · exact (h.left_unset hdone hleft).imp_right Or.inl
    · obtain ⟨hset, -⟩ := h.raced hraced
      rw [hdone] at hset
      cases hset
  | ended hmain =>
    have hopen : R.main ≠ .raised := by rw [hmain]; exact nofun
    refine ⟨nofun, fun hstop => ?_, fun _ hraced hidle => ?_, fun hleft => ?_, fun hraced => ?_,
      nofun⟩
    · rcases h.stop hstop with hfail | hend | hend
      · exact Or.inl hfail
      · exact absurd hend hopen
      · rw [hmain] at hend
        cases hend
    · -- this is where `raced` is decided
      by_contra hpending
      exact of_decide_eq_false hraced ⟨hidle, hpending⟩
    · exact Or.inl ((h.left_unset (h.ingress hmain) hleft).resolve_right hopen)
    · obtain ⟨hidle, hpending⟩ := of_decide_eq_true hraced
      exact ⟨rfl, hpending, Or.inl hidle⟩
  | raised hmain =>
    refine h.ended ?_ (Or.inl rfl)
    rcases hmain with hmain | hmain
    · rw [hmain]; exact nofun
    · rw [hmain]; exact nofun
  | returned hmain hpc hfail =>
    exact h.ended (by rw [hmain]; exact nofun) (Or.inr ⟨rfl, hfail, hpc⟩)

/-- `transmit` moves inside its loop, and if it comes to the test of the flag then because it
found the outbox empty. -/
theorem moved (h : DrainInv R) (hpc : R.transmit ≠ .idle ∧ ¬ R.transmit.Left)
    (hmain : R'.main = R.main) (hstop : R'.stop = R.stop) (hdone : R'.ingressDone = R.ingressDone)
    (hfail : R'.failures = R.failures) (hraced : R'.raced = R.raced)
    (hidle : R'.transmit = .idle → R'.outbox.pending = []) (hin : ¬ R'.transmit.Left) :
    DrainInv R' where
  ingress := by rw [hmain, hdone]; exact h.ingress
  stop := by rw [hstop, hfail, hmain]; exact h.stop
  idle := fun _ _ => hidle
  left := fun hleft => absurd hleft hin
  raced := by
    rw [hraced]
    intro hset
    exact absurd (h.raced hset).2.2 (not_or.mpr hpc)
  returned := by
    rw [hmain]
    intro hret
    rw [(h.returned hret).2] at hpc
    exact absurd trivial hpc.2

/-- `transmit` fails. -/
theorem die (h : DrainInv R) (hpc : R.transmit ≠ .finished) : DrainInv R.die where
  ingress := h.ingress
  stop := fun _ => Or.inl (Nat.succ_ne_zero _)
  idle := fun _ _ hidle => (nomatch hidle)
  left := fun _ => Or.inl (Nat.succ_ne_zero _)
  raced := fun hset => ⟨(h.raced hset).1, (h.raced hset).2.1, Or.inr trivial⟩
  returned := fun hret => absurd (h.returned hret).2 hpc

/-- `transmit` goes out of its loop, for a reason, or on to the end. -/
theorem leaves (h : DrainInv R) (hpc : R.transmit ≠ .finished) (stream : Option ℕ)
    {pc : TransmitPc} (hidle : pc ≠ .idle) (hout : pc.Left)
    (hwhy : R.failures ≠ 0 ∨ R.main = .raised ∨
      R.ingressDone ∧ (R.raced = false → R.outbox.pending = [])) :
    DrainInv { R with stream, transmit := pc } where
  ingress := h.ingress
  stop := h.stop
  idle := fun _ _ heq => absurd heq hidle
  left := fun _ => hwhy
  raced := fun hset => ⟨(h.raced hset).1, (h.raced hset).2.1, Or.inr hout⟩
  returned := fun hret => absurd (h.returned hret).2 hpc

/-- **`transmit`.** -/
theorem stepTransmit (h : DrainInv R) {a : TransmitAction}
    (hstep : R.stepTransmit conns a = some (R', conns')) : DrainInv R' := by
  cases SendRelay.stepTransmit_cases hstep with
  | stopped hpc hstop =>
    have hopen : R.transmit ≠ .finished := by rw [hpc]; exact nofun
    refine h.leaves hopen _ nofun trivial ?_
    rcases h.stop hstop with hfail | hraised | hret
    · exact Or.inl hfail
    · exact Or.inr (Or.inl hraised)
    · exact absurd (h.returned hret).2 hopen
  | done hpc hdone =>
    -- the flag is set, and the outbox was empty when `transmit` looked
    exact h.leaves (by rw [hpc]; exact nofun) _ nofun trivial
      (Or.inr (Or.inr ⟨hdone, fun hraced => h.idle hdone hraced hpc⟩))
  | waited hpc hdone =>
    refine ⟨h.ingress, h.stop, fun _ _ hidle => (nomatch hidle), nofun, fun hset => ?_,
      fun hret => ?_⟩
    · -- a race would have set the flag
      have hset := (h.raced hset).1
      rw [hdone] at hset
      cases hset
    · have hfinished := (h.returned hret).2
      rw [hpc] at hfinished
      cases hfinished
  | finished hpc =>
    exact h.leaves (by rw [hpc]; exact nofun) _ nofun trivial (h.left (by rw [hpc]; trivial))
  | died hpc => exact h.die hpc
  | empty hpc hfirst =>
    exact h.moved (by rw [hpc]; exact ⟨nofun, id⟩) rfl rfl rfl rfl rfl
      (fun _ => List.head?_eq_none_iff.mp hfirst) id
  | connected hpc =>
    exact h.moved (by rw [hpc]; exact ⟨nofun, id⟩) rfl rfl rfl rfl rfl
      (by rw [hpc]; exact nofun) (by rw [hpc]; exact id)
  | again hpc | fetched hpc | sent hpc | acked hpc | retired hpc =>
    exact h.moved (by rw [hpc]; exact ⟨nofun, id⟩) rfl rfl rfl rfl rfl nofun id
  | retried hrow =>
    refine h.moved ?_ rfl rfl rfl rfl rfl nofun id
    cases hpc : R.transmit with
    | idle | closing | finished | loop | fetch => rw [hpc] at hrow; cases hrow
    | «have» | sent | acked => exact ⟨nofun, id⟩

/-- **One step of the system.** -/
theorem step {W W' : World} (h : DrainInv W.send) {a : Action} (hstep : W.step a = some W') :
    DrainInv W'.send := by
  rcases World.step_send hstep with ⟨b, -, hmain⟩ | ⟨b, htransmit⟩ | hrestart | hsame
  · exact h.stepMain hmain
  · exact h.stepTransmit htransmit
  · rw [hrestart]
    exact fresh _ _
  · rw [hsame]
    exact h

/-- **Every run.** -/
theorem reachable {outbox inbox : ℕ × String × Session} {W : World}
    (h : (relays outbox inbox).Reachable W) : DrainInv W.send :=
  h.invariant (P := fun W => DrainInv W.send) (fresh _ _) fun hinv hstep => hinv.step hstep

end DrainInv

/-! ### What a return means -/

/-- Nothing is left in the outbox, and everything enqueued is below the mark of the remote
relay. -/
def World.Drained (W : World) : Prop :=
  W.send.outbox.pending = [] ∧ W.send.enqueued.length ≤ W.mark

/-- An empty outbox has been accepted by the remote relay. -/
theorem Inv.drained {W : World} (h : Inv W) (hpending : W.send.outbox.pending = []) :
    W.Drained := by
  obtain ⟨r, hr, hspooled⟩ := h.send.spooled
  rw [hspooled.pending, List.drop_eq_nil_iff] at hpending
  exact ⟨by rw [hspooled.pending, List.drop_eq_nil_iff]; exact hpending, hpending.trans hr⟩

/-- **A return means drained or raced.** Whenever `send` has returned, the outbox is empty and all
of it has arrived if and only if there was no race. -/
theorem drained_iff {outbox inbox : ℕ × String × Session} {W : World}
    (h : (relays outbox inbox).Reachable W) (hret : W.send.main = .returned) :
    W.Drained ↔ W.send.raced = false := by
  have hinv := DrainInv.reachable h
  obtain ⟨hfail, hfinished⟩ := hinv.returned hret
  constructor
  · intro hdrained
    by_contra hraced
    exact (hinv.raced (Bool.eq_true_of_not_eq_false hraced)).2.1 hdrained.1
  · intro hraced
    rcases hinv.left (by rw [hfinished]; trivial) with hfail' | hraised | ⟨-, hempty⟩
    · exact absurd hfail hfail'
    · rw [hret] at hraised
      cases hraised
    · exact (Inv.reachable h).drained (hempty hraced)

/-- A step that is no race: `ingress_done` is not set while `transmit` stands between a look at an
empty outbox and the test of the flag, with a row enqueued since the look. -/
def World.Unraced (W : World) : Action → Prop
  | .main .endInput => ¬ (W.send.transmit = .idle ∧ W.send.outbox.pending ≠ [])
  | _ => True

instance (W : World) (a : Action) : Decidable (W.Unraced a) := by
  unfold World.Unraced
  split <;> infer_instance

/-- `raced` is set by a race only. -/
theorem World.Unraced.step {W W' : World} {a : Action} (h : W.Unraced a)
    (hraced : W.send.raced = false) (hstep : W.step a = some W') : W'.send.raced = false := by
  rcases World.step_send hstep with ⟨b, rfl, hmain⟩ | ⟨b, htransmit⟩ | hrestart | hsame
  · generalize W'.send = send at hmain ⊢
    cases SendRelay.stepMain_cases hmain with
    | ended => exact decide_eq_false h
    | enqueued | refused | raised | returned => exact hraced
  · generalize W'.send = send, W'.conns = conns at htransmit ⊢
    cases SendRelay.stepTransmit_cases htransmit <;> exact hraced
  · rw [hrestart]
    rfl
  · rw [hsame]
    exact hraced

/-- **`send` returns drained, but for the race.** In every run none of whose steps is a race,
whenever `send` has returned, the outbox is empty and all of it has been accepted by the remote
relay. -/
theorem returns_drained_unless_raced {outbox inbox : ℕ × String × Session} {W : World}
    (h : ((relays outbox inbox).only World.Unraced).Reachable W)
    (hret : W.send.main = .returned) : W.Drained := by
  refine (drained_iff h.of_only hret).mpr ?_
  refine h.invariant (P := fun W => W.send.raced = false) rfl ?_
  intro W a W' hraced hstep
  obtain ⟨hunraced, hstep⟩ := Machine.only_step hstep
  exact hunraced.step hraced hstep

/-- A frame is enqueued, sent, acknowledged and retired, and then the input ends. -/
def drainRun : List Action :=
  [.main (.enqueue [7]),
    .transmit .testStop, .transmit .fetch, .transmit .connect, .transmit .send,
    .net (.receive 0), .net .ack, .transmit .readAck, .transmit .retire,
    .transmit .testStop, .transmit .fetch, .main .endInput, .transmit .testDone,
    .transmit (.close true), .main .join]

theorem one_frame_drained :
    ∃ W, (twoRelays.only World.Unraced).run twoRelays.start drainRun = some W ∧
      W.send.main = .returned ∧ W.send.enqueued.length = 1 ∧ W.Drained := by
  have hfacts : ((twoRelays.only World.Unraced).run twoRelays.start drainRun).map
      (fun W => (W.send.main, W.send.enqueued.length)) = some (.returned, 1) := by decide +kernel
  obtain ⟨W, hrun, heq⟩ := Option.map_eq_some_iff.mp hfacts
  injection heq with hmain hlength
  have hreach : (twoRelays.only World.Unraced).Reachable W := ⟨_, hrun⟩
  exact ⟨W, hrun, hmain, hlength, returns_drained_unless_raced hreach hmain⟩

/-- `transmit` sees an empty outbox; the frame is enqueued and the input ends; `transmit` sees
the flag. -/
def raceRun : List Action :=
  [.transmit .testStop, .transmit .fetch, .main (.enqueue [7]), .main .endInput,
    .transmit .testDone, .transmit (.close true), .main .join]

/-- `send` returns without a failure, with the frame in the outbox and nothing accepted. -/
theorem returns_with_row_pending :
    ∃ W, (relays (8192, "out", 1) (8192, "in", 2)).Reachable W ∧ W.send.main = .returned ∧
      W.send.failures = 0 ∧ W.send.outbox.pending.map Row.payload = [[7]] ∧ W.mark = 0 ∧
      ¬ W.Drained := by
  have hfacts : (twoRelays.run twoRelays.start raceRun).map (fun W => (W.send.main,
      W.send.failures, W.send.outbox.pending.map Row.payload, W.mark)) =
        some (.returned, 0, [[7]], 0) := by decide +kernel
  obtain ⟨W, hrun, heq⟩ := Option.map_eq_some_iff.mp hfacts
  simp only [Prod.mk.injEq] at heq
  obtain ⟨hmain, hfail, hpending, hmark⟩ := heq
  refine ⟨W, ⟨_, hrun⟩, hmain, hfail, hpending, hmark, fun hdrained => ?_⟩
  rw [hdrained.1] at hpending
  cases hpending

end Durable
end PulseFanout
