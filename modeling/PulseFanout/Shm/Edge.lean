import PulseFanout.Shm.Lapping

/-!
# When readers at the edge hold the writer up

With backpressure `publish` looks at the cursors once the ring is full, and waits while one of them
is a ring behind. A reader that has read all there is should not make it wait. But the cursor is
zero from `attach` to the first frame that is read, and a reader that starts from the edge of a full
ring has no frame to read: the writer waits for it, and it for the writer (`edge_reader_blocks`).

That is the only way. A reader that has moved since it started has stored its position
(`Follows.cursor`), and while the ring is not full nobody looks. `no_false_backpressure` has both
directions; for the second, `Standing` follows a reader that has not moved: its cursor is still
zero, or it was sent where it stands by `kLapped`, and then there is a frame to read.
-/

namespace PulseFanout
namespace Shm

open Framework

variable {cfg : Config} {S S' : World} {r : ℕ}

/-! ### Readers that have not moved -/

theorem World.position_congr (hhandle : S'.ring.handles r = S.ring.handles r)
    (hclient : S'.clients r = S.clients r) : S'.position r = S.position r := by
  rw [World.position, hhandle, hclient]
  rfl

/-- Where a reader stands, counted from where it started. -/
structure Standing (S : World) (r : ℕ) : Prop where
  /-- Nothing is read before `read_index` is set. -/
  fresh : ∀ i, (S.ring.handles r).reader = some i → (S.clients r).readIndex = none →
    (S.ring.handles r).returns = [] → (S.ring.readers i).cursor = 0
  range : ∀ n, S.position r = some n → (S.clients r).start ≤ n ∧ n ≤ S.ring.calls.length
  /-- A reader still at its start has read nothing, or was sent there by `kLapped`. -/
  unread : ∀ i, (S.ring.handles r).reader = some i → S.position r = some (S.clients r).start →
    (S.ring.readers i).cursor = 0 ∨ (S.clients r).start < S.ring.writeIndex

namespace Standing

theorem start : Standing (loops cfg).start r where
  fresh := nofun
  range := nofun
  unread := nofun

/-- Before `read_index` is set. -/
theorem unset (hposition : S.position r = none)
    (hcursor : ∀ i, (S.ring.handles r).reader = some i → (S.ring.handles r).returns = [] →
      (S.ring.readers i).cursor = 0) : Standing S r where
  fresh := fun i hreader _ hnil => hcursor i hreader hnil
  range := fun n hn => by
    rw [hposition] at hn
    cases hn
  unread := fun i _ hn => by
    rw [hposition] at hn
    cases hn

/-- A step that leaves the reader where it is. -/
theorem congr (h : Standing S r) (hstart : (S'.clients r).start = (S.clients r).start)
    (hposition : S'.position r = S.position r)
    (hunset : (S'.clients r).readIndex = none → (S'.ring.handles r).returns = [] →
      (S.clients r).readIndex = none ∧ (S.ring.handles r).returns = [])
    (hentry : ∀ i, (S'.ring.handles r).reader = some i →
      (S.ring.handles r).reader = some i ∧ (S'.ring.readers i).cursor = (S.ring.readers i).cursor)
    (hcalls : S.ring.calls.length ≤ S'.ring.calls.length)
    (hindex : S.ring.writeIndex ≤ S'.ring.writeIndex) : Standing S' r := by
  refine ⟨fun i hreader hnone hnil => ?_, fun n hn => ?_, fun i hreader hn => ?_⟩
  · obtain ⟨hold, hcursor⟩ := hentry i hreader
    obtain ⟨hnone, hnil⟩ := hunset hnone hnil
    rw [hcursor]
    exact h.fresh i hold hnone hnil
  · rw [hposition] at hn
    rw [hstart]
    exact ⟨(h.range n hn).1, (h.range n hn).2.trans hcalls⟩
  · obtain ⟨hold, hcursor⟩ := hentry i hreader
    rw [hposition, hstart] at hn
    rw [hcursor, hstart]
    exact (h.unread i hold hn).imp_right fun hlt => hlt.trans_le hindex

/-- A step of the reader in which no call returns and no cursor is stored. -/
theorem quiet (h : Standing S r) {W : State} {hd : Handle} (hself : W.handles r = hd)
    (hlive : hd.pc ≠ .dead) (hreturns : hd.returns = (S.ring.handles r).returns)
    (hstored : ∀ index frame, hd.pc ≠ .stored index frame)
    (hbefore : ∀ index frame, (S.ring.handles r).pc ≠ .stored index frame)
    (hentry : ∀ i, hd.reader = some i → (S.ring.handles r).reader = some i ∧
      (W.readers i).cursor = (S.ring.readers i).cursor)
    (hcalls : W.calls = S.ring.calls) (hindex : W.writeIndex = S.ring.writeIndex) :
    Standing (S.moved r W) r := by
  subst hself
  have hclient : (S.moved r W).clients r = S.clients r := by
    rw [World.clients_moved, World.advanced_still hlive hreturns]
  refine h.congr (congrArg Client.start hclient) ?_ (fun hnone hnil => ?_) hentry
    (congrArg List.length hcalls).ge hindex.ge
  · rw [Follows.position_eq (S := S.moved r W) hstored, Follows.position_eq hbefore, hclient]
  · rw [hclient] at hnone
    exact ⟨hnone, hreturns.symm.trans hnil⟩

/-- A call of `read` returns nothing. -/
theorem returnedEmpty (h : Standing S r) {W : State} {index : ℕ}
    (hself : W.handles r = (S.ring.handles r).return index .empty)
    (hbefore : ∀ index frame, (S.ring.handles r).pc ≠ .stored index frame)
    (hreaders : W.readers = S.ring.readers) (hcalls : W.calls = S.ring.calls)
    (hindex : W.writeIndex = S.ring.writeIndex) : Standing (S.moved r W) r := by
  have hclient : (S.moved r W).clients r = S.clients r := by
    rw [World.clients_moved, World.advanced_return hself]
    rfl
  have hpc : ((S.moved r W).ring.handles r).pc = .idle := congrArg Handle.pc hself
  refine h.congr (congrArg Client.start hclient) ?_ (fun _ hnil => ?_) (fun i hi => ?_)
    (congrArg List.length hcalls).ge hindex.ge
  · rw [Follows.position_eq (S := S.moved r W) (by rw [hpc]; exact nofun),
      Follows.position_eq hbefore, hclient]
  · have hreturns : (S.ring.handles r).returns ++ [(index, .empty)] = [] :=
      (congrArg Handle.returns hself).symm.trans hnil
    exact absurd hreturns (List.append_ne_nil_of_right_ne_nil _ (List.cons_ne_nil _ _))
  · refine ⟨(congrArg Handle.reader hself).symm.trans hi, ?_⟩
    change (W.readers i).cursor = _
    rw [hreaders]

/-- **The cursor is stored**: the reader has moved. -/
theorem stored (h : Standing S r) (hinv : Inv cfg S.ring)
    (hbound : S.ring.calls.length < 2 ^ 64 - 1) {W : State} {index : ℕ} {frame : List Byte}
    (hpc : (S.ring.handles r).pc = .copied index frame)
    (hread : (S.clients r).readIndex = some index)
    (hself : W.handles r = { S.ring.handles r with pc := .stored index frame })
    (hcalls : W.calls = S.ring.calls) : Standing (S.moved r W) r := by
  have hclient : (S.moved r W).clients r = S.clients r := by
    rw [World.clients_moved, World.advanced_still (by rw [hself]; simp) (by rw [hself])]
  have hafter : (S.moved r W).position r = some (next index) := by
    rw [World.position, World.moved, hself]
  have hbefore : S.position r = some index := by
    rw [Follows.position_eq (by rw [hpc]; simp), hread]
  obtain ⟨hle, hlength⟩ := h.range index hbefore
  have hnext : next index = index + 1 := Nat.mod_eq_of_lt (by omega)
  -- the frame that was copied is that of a call
  have hcall : index < S.ring.calls.length := by
    obtain ⟨k, hk, hmod⟩ := (hinv.handles r).got index frame (by rw [hpc]; rfl) (by omega)
    have hlt := (List.getElem?_eq_some_iff.mp hk).1
    omega
  rw [hnext] at hafter
  refine ⟨fun i _ hnone _ => ?_, fun n hn => ?_, fun i _ hn => ?_⟩
  · rw [hclient, hread] at hnone
    cases hnone
  · obtain rfl := Option.some.inj (hafter.symm.trans hn)
    rw [hclient]
    change _ ∧ _ ≤ W.calls.length
    rw [hcalls]
    omega
  · have hsame := Option.some.inj (hafter.symm.trans hn)
    rw [hclient] at hsame
    omega

/-- **`kLapped`**: where the reader is sent there is a frame to read. -/
theorem lapped (hinv : Inv cfg S.ring) (hbound : S.ring.calls.length < 2 ^ 64 - 1) {W : State}
    {index : ℕ} (hindex : index < 2 ^ 64 - 1)
    (hseq : (S.ring.slots (cfg.place index)).seq > next index)
    (hself : W.handles r = (S.ring.handles r).return index (.lapped
      (if S.ring.writeIndex > cfg.slotCount then S.ring.writeIndex - cfg.slotCount else 0)))
    (hcalls : W.calls = S.ring.calls) (hedge : W.writeIndex = S.ring.writeIndex) :
    Standing (S.moved r W) r := by
  have hpos := cfg.slotCount_pos
  have hnext : next index = index + 1 := Nat.mod_eq_of_lt (by omega)
  -- a later call has been in the slot, so one is published
  obtain ⟨k, frame, hk, -, hnamed, -, -⟩ := hinv.filled (cfg.place index) (by omega)
  have hlt := (List.getElem?_eq_some_iff.mp hk).1
  obtain ⟨m, hm, hlength⟩ := hinv.calls_length
  have hmod : (k + 1) % 2 ^ 64 = k + 1 := Nat.mod_eq_of_lt (by omega)
  have hpublished : 0 < S.ring.writeIndex ∧ S.ring.writeIndex ≤ S.ring.calls.length := by omega
  have hclient := World.clients_moved (S := S) r W
  rw [World.advanced_return hself] at hclient
  have hposition : (S.moved r W).position r = some ((S.moved r W).clients r).start := by
    have hpc : ((S.moved r W).ring.handles r).pc = .idle := congrArg Handle.pc hself
    rw [Follows.position_eq (by rw [hpc]; exact nofun), hclient]
    rfl
  have hstart : ((S.moved r W).clients r).start < S.ring.writeIndex := by
    rw [hclient]
    change (if S.ring.writeIndex > cfg.slotCount then S.ring.writeIndex - cfg.slotCount else 0) < _
    split <;> omega
  refine ⟨fun i _ hnone _ => ?_, fun n hn => ?_, fun i _ _ => .inr ?_⟩
  · rw [hclient] at hnone
    cases hnone
  · obtain rfl := Option.some.inj (hposition.symm.trans hn)
    change _ ∧ _ ≤ W.calls.length
    rw [hcalls]
    omega
  · change _ < W.writeIndex
    rw [hedge]
    exact hstart

/-- `read` with the mutex. -/
theorem check (h : Standing S r) (hinv : Inv cfg S.ring)
    (hbound : S.ring.calls.length < 2 ^ 64 - 1) {index : ℕ}
    (hpc : (S.ring.handles r).pc = .within index)
    (hread : (S.clients r).readIndex = some index) :
    Standing (S.moved r (S.ring.check cfg r index)) r := by
  have hbefore : ∀ index frame, (S.ring.handles r).pc ≠ .stored index frame := by
    rw [hpc]
    exact nofun
  have hindex : index < 2 ^ 64 - 1 := by
    have := (h.range index ((Follows.position_eq hbefore).trans hread)).2
    omega
  unfold State.check
  dsimp only
  split
  · exact h.returnedEmpty (State.handles_setHandle r _) hbefore rfl rfl rfl
  · split
    · next hseq =>
      exact lapped hinv hbound hindex hseq (State.handles_setHandle r _) rfl rfl
    · next hlow hhigh =>
      -- `kCorrupt` is never returned
      obtain ⟨-, -, -, hgood, -⟩ := hinv.hit hindex hlow hhigh
      rw [if_neg hgood]
      exact h.quiet (State.handles_setHandle r _) nofun rfl nofun hbefore
        (fun i hi => ⟨hi, rfl⟩) rfl rfl

/-- The process dies. -/
theorem died (h : Standing S r) :
    Standing (S.moved r (S.ring.setHandle r { S.ring.handles r with pc := .dead })) r := by
  have hself : (S.ring.setHandle r { S.ring.handles r with pc := .dead }).handles r =
      { S.ring.handles r with pc := .dead } := State.handles_setHandle r _
  have hclient := World.clients_moved (S := S) r
    (S.ring.setHandle r { S.ring.handles r with pc := .dead })
  rw [World.advanced_dead (by rw [hself])] at hclient
  refine h.congr (by rw [hclient]) ?_ (fun hnone hnil => ?_) (fun i hi => ?_) le_rfl le_rfl
  · rw [Follows.position_eq, hclient]
    intro index frame heq
    rw [World.moved, hself] at heq
    cases heq
  · rw [hclient] at hnone
    have hposition : S.position r = none := hnone
    rw [World.moved, hself] at hnil
    refine ⟨?_, hnil⟩
    unfold World.position at hposition
    split at hposition
    · cases hposition
    · exact hposition
  · rw [World.moved, hself] at hi
    exact ⟨hi, rfl⟩

/-- **The reader itself.** -/
theorem stepSelf (hreach : (loops cfg).Reachable S) (h : Standing S r)
    (hbound : S.ring.calls.length < 2 ^ 64 - 1) {W : State} (hstep : ReaderStep cfg S.ring r W)
    (hcall : ∀ index, (W.handles r).pc.index? = some index →
      (S.clients r).readIndex = some index) : Standing (S.moved r W) r := by
  have hself : ∀ (W : State) hd, ((W.setHandle r hd).handles r) = hd := fun W =>
    State.handles_setHandle r
  have hfollows := Follows.reachable hreach r
  have hinv := Inv.reachable (World.ring_reachable hreach)
  have hentry := (Registered.reachable (World.ring_reachable hreach)).entry r
  -- in `attach` there is no position yet, and the cursor is that of `attach`
  have hattach : ∀ {W : State} {hd : Handle}, W.handles r = hd → hd.pc ≠ .dead →
      hd.returns = (S.ring.handles r).returns → (∀ index frame, hd.pc ≠ .stored index frame) →
      ¬ (S.ring.handles r).pc.Settled →
      (∀ i, hd.reader = some i → (W.readers i).cursor = 0) → Standing (S.moved r W) r := by
    rintro W hd rfl hlive hreturns hstored hunset hcursor
    refine unset ?_ fun i hi _ => hcursor i hi
    rw [Follows.position_eq (S := S.moved r W) hstored, World.clients_moved,
      World.advanced_still hlive hreturns]
    exact hfollows.unset hunset
  cases hstep with
  | attach hpc | own hpc | found hpc | taken hpc | full hpc | reset hpc =>
    refine hattach (hself _ _) (by simp) rfl (by simp) (by rw [hpc]; exact id) fun i hi => ?_
    have hnone := (hentry.fresh (by rw [hpc]; trivial)).1
    cases hnone.symm.trans hi
  | @claim i pid hpc =>
    refine hattach (hself _ _) (by simp) rfl (by simp) (by rw [hpc]; exact id) fun j hj => ?_
    obtain rfl := Option.some.inj hj
    change ((S.ring.setReader i _).readers i).cursor = 0
    rw [State.readers_setReader]
    exact hentry.zero i (.inl hpc)
  | @leave i hpc =>
    refine hattach (hself _ _) (by simp) rfl (by simp) (by rw [hpc]; exact id) fun j hj => ?_
    obtain rfl := Option.some.inj ((hentry.leave i hpc).1.symm.trans hj)
    exact hentry.zero i (.inr hpc)
  | read hpc | enter hpc =>
    exact h.quiet (hself _ _) (by simp) rfl (by simp) (by rw [hpc]; simp) (fun i hi => ⟨hi, rfl⟩)
      rfl rfl
  | busy hpc =>
    exact h.returnedEmpty (hself _ _) (by rw [hpc]; simp) rfl rfl rfl
  | check hpc => exact h.check hinv hbound hpc (hfollows.call _ (by rw [hpc]; rfl))
  | store hpc | skip hpc =>
    exact h.stored hinv hbound hpc (hfollows.call _ (by rw [hpc]; rfl)) (hself _ _) rfl
  | @finish index frame hpc =>
    -- the position is what it was when the cursor was stored
    have hread := hfollows.call index (by rw [hpc]; rfl)
    have hW : (S.ring.released cfg r index (.ok frame)).handles r =
        (S.ring.handles r).return index (.ok frame) := hself _ _
    have hclient := World.clients_moved (S := S) r (S.ring.released cfg r index (.ok frame))
    rw [World.advanced_return hW] at hclient
    refine h.congr (by rw [hclient]; rfl) ?_ (fun hnone _ => ?_) (fun i hi => ?_) le_rfl le_rfl
    · rw [Follows.position_eq, hclient, World.position, hpc, Client.after, hread]
      · rfl
      · intro index frame heq
        rw [World.moved, hW] at heq
        cases heq
    · rw [hclient, Client.after, hread] at hnone
      cases hnone
    · rw [World.moved, hW] at hi
      exact ⟨hi, rfl⟩
  | detach hpc | drop hpc =>
    exact h.quiet (hself _ _) (by simp) rfl (by simp) (by rw [hpc]; simp) (fun _ hi => by cases hi)
      rfl rfl
  | kill => exact h.died

/-- **Every run.** -/
theorem reachable (h : (loops cfg).Reachable S) (hbound : S.ring.calls.length < 2 ^ 64 - 1)
    (r : ℕ) : Standing S r := by
  refine h.induction (P := fun S => S.ring.calls.length < 2 ^ 64 - 1 → Standing S r)
    (fun _ => start) ?_ hbound
  intro S m S' hreach hstanding hmove hbound
  have hring := World.ring_reachable hreach
  cases loops_cases hmove with
  | writer hstep =>
    -- entries and handles stay, and the indices only grow
    obtain ⟨hreaders, hhandles, -, hcalls⟩ := State.stepWriter_frame hstep
    have hbefore := lt_of_le_of_lt hcalls.length_le hbound
    refine (hstanding hbefore).congr rfl ?_ (fun hnone hnil => ?_) (fun i hi => ?_)
      hcalls.length_le (hstep.writeIndex_le (Inv.reachable hring) (hbound.trans (by decide)))
    · exact World.position_congr (congrFun hhandles r) rfl
    · exact ⟨hnone, hhandles ▸ hnil⟩
    · exact ⟨hhandles ▸ hi, by rw [hreaders]⟩
  | @reader q W hstep hcall =>
    obtain ⟨-, hindex, hcalls, hothers⟩ := State.stepReader_frame hstep
    have hbefore : S.ring.calls.length < 2 ^ 64 - 1 := hcalls ▸ hbound
    by_cases hq : q = r
    · subst hq
      exact (hstanding hbefore).stepSelf hreach hbefore hstep hcall
    -- another reader does not touch the entry of this one
    · have hhandle := hothers r (Ne.symm hq)
      have hclient := World.clients_moved_of_ne (S := S) (Ne.symm hq) W
      refine (hstanding hbefore).congr (congrArg Client.start hclient) ?_
        (fun hnone hnil => ?_) (fun i hi => ?_) (congrArg List.length hcalls).ge hindex.ge
      · exact World.position_congr hhandle hclient
      · rw [hclient] at hnone
        exact ⟨hnone, hhandle ▸ hnil⟩
      · have hi : (S.ring.handles r).reader = some i := hhandle ▸ hi
        refine ⟨hi, congrArg ReaderState.cursor ?_⟩
        exact (Registered.reachable hring).entry_kept hstep hq (.inl hi)
  | @begin q fromEdge hpc hnew hreturns =>
    by_cases hq : q = r
    · subst hq
      have hold := hstanding hbound
      have hclient : Function.update S.clients q
          ((S.clients q).begin (if fromEdge then S.ring.writeIndex else 0)) q =
            (S.clients q).begin (if fromEdge then S.ring.writeIndex else 0) :=
        Function.update_self ..
      -- `read_index` is set, and the cursor is still that of `attach`
      obtain ⟨m, hm, hlength⟩ := (Inv.reachable hring).calls_length
      refine ⟨fun i _ hnone _ => ?_, fun n hn => ?_, fun i hi _ => .inl ?_⟩
      · dsimp only at hnone
        rw [hclient] at hnone
        cases hnone
      · rw [Follows.position_eq (by rw [hpc]; exact nofun)] at hn
        dsimp only at hn ⊢
        rw [hclient] at hn ⊢
        obtain rfl := Option.some.inj hn
        refine ⟨le_rfl, ?_⟩
        split <;> omega
      · exact hold.fresh i hi hnew hreturns
    · refine (hstanding hbound).congr ?_ ?_ (fun hnone hnil => ?_) (fun i hi => ⟨hi, rfl⟩)
        le_rfl le_rfl
      · dsimp only
        rw [Function.update_of_ne (Ne.symm hq)]
      · exact World.position_congr rfl (Function.update_of_ne (Ne.symm hq) ..)
      · dsimp only at hnone
        rw [Function.update_of_ne (Ne.symm hq)] at hnone
        exact ⟨hnone, hnil⟩

end Standing

/-! ### The writer alone -/

/-- The writer in front of reader `i`, which is a ring behind: it has not come as far as a slot, and
once it has passed the entry it knows that it is blocked. -/
structure Barred (W₀ : State) (i : ℕ) (W : State) : Prop where
  readers : W.readers = W₀.readers
  writeIndex : W.writeIndex = W₀.writeIndex
  calls : W.calls = W₀.calls
  writer : match W.writer with
    | .idle | .dead => True
    | .pid c j _ blocked | .cursor c j blocked =>
      c.idx = W₀.writeIndex ∧ (i < j → blocked = true)
    | .enter _ | .within _ _ => False

namespace Barred

variable {W₀ W W' : State} {i : ℕ}

/-- **One step of the writer.** -/
theorem step (hpolicy : cfg.backpressure = true) (hfull : cfg.slotCount ≤ W₀.writeIndex)
    (hi : i < maxReaders) (hpid : (W₀.readers i).pid ≠ 0)
    (hbehind : (W₀.readers i).cursor ≤ W₀.writeIndex - cfg.slotCount) (h : Barred W₀ i W)
    (hstep : WriterStep cfg W W') : Barred W₀ i W' := by
  have hwriter := h.writer
  cases hstep with
  | scan => exact ⟨h.readers, h.writeIndex, h.calls, h.writeIndex, fun hlt => absurd hlt (by omega)⟩
  | begin _ _ hroom => exact absurd ⟨hpolicy, h.writeIndex ▸ hfull⟩ hroom
  | refused => exact h
  | @vacant c j any blocked hpc hvacant =>
    rw [hpc] at hwriter
    refine ⟨h.readers, h.writeIndex, h.calls, hwriter.1, fun hlt => hwriter.2 ?_⟩
    -- the entry just passed is not that of the reader
    have hne : i ≠ j := by
      rintro rfl
      rw [h.readers] at hvacant
      exact hpid hvacant
    omega
  | occupied hpc =>
    rw [hpc] at hwriter
    exact ⟨h.readers, h.writeIndex, h.calls, hwriter⟩
  | @compare c j blocked hpc =>
    rw [hpc] at hwriter
    refine ⟨h.readers, h.writeIndex, h.calls, hwriter.1, fun hlt => ?_⟩
    rw [Bool.or_eq_true, decide_eq_true_eq]
    rcases Nat.lt_or_eq_of_le (Nat.le_of_lt_succ hlt) with hlt | rfl
    · exact .inl (hwriter.2 hlt)
    · rw [h.readers, hwriter.1]
      exact .inr hbehind
  | pass hpc hend hclear =>
    rw [hpc] at hwriter
    rw [hwriter.2 (hi.trans_le hend)] at hclear
    cases hclear
  | rescan hpc =>
    rw [hpc] at hwriter
    exact ⟨h.readers, h.writeIndex, h.calls, hwriter.1, fun hlt => absurd hlt (by omega)⟩
  | enter hpc | stage hpc =>
    rw [hpc] at hwriter
    exact hwriter.elim
  | giveUp | kill => exact ⟨h.readers, h.writeIndex, h.calls, trivial⟩

/-- **However long it tries.** -/
theorem run (hpolicy : cfg.backpressure = true) (hfull : cfg.slotCount ≤ W₀.writeIndex)
    (hi : i < maxReaders) (hpid : (W₀.readers i).pid ≠ 0)
    (hbehind : (W₀.readers i).cursor ≤ W₀.writeIndex - cfg.slotCount) (h : Barred W₀ i W)
    {actions : List WriterAction}
    (hrun : (ring cfg).run W (actions.map Action.writer) = some W') : Barred W₀ i W' := by
  induction actions generalizing W with
  | nil =>
    cases hrun
    exact h
  | cons a actions ih =>
    rw [List.map_cons, Machine.run_cons, Option.bind_eq_some_iff] at hrun
    obtain ⟨W₁, hfirst, hrest⟩ := hrun
    exact ih (h.step hpolicy hfull hi hpid hbehind (State.stepWriter_cases hfirst)) hrest

end Barred

/-! ### Backpressure -/

namespace World

/-- No cursor holds the writer up: the ring is not full, so that `publish` does not look, or no
registered reader is a ring behind. -/
def Clear (cfg : Config) (S : World) : Prop :=
  cfg.slotCount ≤ S.ring.writeIndex → ∀ i < maxReaders, (S.ring.readers i).pid ≠ 0 →
    ¬ (S.ring.readers i).cursor ≤ S.ring.writeIndex - cfg.slotCount

/-- The ring is not full, or no registered reader is still where it started. -/
def UnderWay (cfg : Config) (S : World) : Prop :=
  S.ring.writeIndex < cfg.slotCount ∨
    ∀ r i, (S.ring.handles r).reader = some i → (S.clients r).start ≠ S.ring.writeIndex

end World

/-- **No false backpressure**, but for one case. In every reachable state, with at least one reader
registered and every registered reader at the edge:

* no cursor holds the writer up if the ring is not full, or if no reader is still where it started;
* before the indices have come to their end, this is also needed;
* if no cursor holds it up, the next call of `publish` can go on to its slot;
* if one does, no call comes as far as a slot while the readers wait. -/
theorem no_false_backpressure (h : (loops cfg).Reachable S)
    (hany : ∃ i < maxReaders, (S.ring.readers i).pid ≠ 0)
    (hedge : ∀ i < maxReaders, (S.ring.readers i).pid ≠ 0 →
      ∃ r, (S.ring.handles r).reader = some i ∧ S.position r = some S.ring.writeIndex) :
    (S.UnderWay cfg → S.Clear cfg) ∧
    (S.ring.calls.length < 2 ^ 64 - 1 → S.Clear cfg → S.UnderWay cfg) ∧
    (S.ring.writer = .idle → S.Clear cfg → ∀ frame, Sized frame →
      (ring cfg).Leads S.ring { S.ring with writer := .enter ⟨S.ring.writeIndex, frame⟩ }) ∧
    (S.ring.writer = .idle → cfg.backpressure = true → ¬ S.Clear cfg →
      ∀ (actions : List WriterAction) (W : State),
        (ring cfg).run S.ring (actions.map Action.writer) = some W → W.calls = S.ring.calls) := by
  have hpos := cfg.slotCount_pos
  refine ⟨fun hunder hfull i hi hpid => ?_, fun hbound hclear => ?_,
    fun hidle hclear frame hsized => ?_, fun hidle hpolicy hheld actions W hrun => ?_⟩
  · -- a reader that has moved has stored its position, which is the edge
    obtain ⟨r, hreader, hposition⟩ := hedge i hi hpid
    have hmoved := hunder.resolve_left (not_lt.mpr hfull) r i hreader
    rw [(Follows.reachable h r).cursor i _ hreader hposition hmoved.symm]
    omega
  · -- one that has not still has the cursor of `attach`
    refine or_iff_not_imp_left.mpr fun hfull r i hreader hstart => ?_
    obtain ⟨hi, hpid⟩ :=
      ((Registered.reachable (World.ring_reachable h)).entry r).owned i hreader
    obtain ⟨q, hreader', hposition⟩ := hedge i hi hpid
    obtain rfl := (Registered.reachable (World.ring_reachable h)).unique r q i hreader hreader'
    rw [← hstart] at hposition
    rcases (Standing.reachable h hbound r).unread i hreader hposition with hzero | hlt
    · exact hclear (not_lt.mp hfull) i hi hpid (hzero ▸ Nat.zero_le _)
    · omega
  -- `publish` looks only at a full ring, and finds no cursor that far behind
  · have hbegin : (ring cfg).step S.ring (.writer (.publish frame)) =
        some { S.ring with
          writer := if cfg.backpressure ∧ cfg.slotCount ≤ S.ring.writeIndex then
            .pid ⟨S.ring.writeIndex, frame⟩ 0 false false
          else .enter ⟨S.ring.writeIndex, frame⟩ } := by
      simp only [ring_writer, State.stepWriter, hidle]
      rw [if_pos (show 1 ≤ frame.length ∧ frame.length ≤ frameCap from hsized)]
    refine .step hbegin ?_
    split
    · next hscan =>
      exact State.scan_passes _ (fun i hi hpid => not_le.mp (hclear hscan.2 i hi hpid)) hany
    · exact .refl _
  -- the scan does not get past the entry that is a ring behind
  · unfold World.Clear at hheld
    push Not at hheld
    obtain ⟨hfull, i, hi, hpid, hbehind⟩ := hheld
    have hbarred : Barred S.ring i S.ring := ⟨rfl, rfl, rfl, by rw [hidle]; trivial⟩
    exact (hbarred.run hpolicy hfull hi hpid hbehind hrun).calls

/-- A step of the ring. -/
def Action.move : Action → Move
  | .writer a => .writer a
  | .reader r a => .reader r a

/-- In a ring of one slot, a frame is published and the reader takes it. -/
def caughtUpRun : List Move :=
  (publishUnchecked [7] ++ attachFirst).map Action.move ++ [.begin 0 false] ++
    (readOne 0).map Action.move

theorem caught_up_reader_passes :
    ∃ S, (loops (oneSlot true)).run (loops (oneSlot true)).start caughtUpRun = some S ∧
      S.ring.writeIndex = 1 ∧
      (ring (oneSlot true)).Leads S.ring { S.ring with writer := .enter ⟨1, [8]⟩ } := by
  have hfacts : ((loops (oneSlot true)).run (loops (oneSlot true)).start caughtUpRun).any
      (fun S => S.ring.writeIndex = 1 ∧ S.ring.writer = .idle ∧ (S.ring.readers 0).pid ≠ 0 ∧
        (∀ i < maxReaders, (S.ring.readers i).pid ≠ 0 → i = 0) ∧
        (S.ring.handles 0).reader = some 0 ∧ S.position 0 = some 1 ∧
        (S.clients 0).start = 0) = true := by decide +kernel
  obtain ⟨S, hrun, heq⟩ := (Option.any_eq_true _ _).mp hfacts
  obtain ⟨hindex, hidle, hpid, hzero, hreader, hposition, hstart⟩ := of_decide_eq_true heq
  obtain ⟨hclear, -, hpass, -⟩ := no_false_backpressure ⟨_, hrun⟩ ⟨0, by decide, hpid⟩ <| by
    intro i hi hused
    rw [hzero i hi hused, hindex]
    exact ⟨0, hreader, hposition⟩
  have hunder : S.UnderWay (oneSlot true) := by
    refine .inr fun r i hr => ?_
    have hregistered := Registered.reachable (World.ring_reachable ⟨_, hrun⟩)
    obtain ⟨hi, hused⟩ := (hregistered.entry r).owned i hr
    obtain rfl := hzero i hi hused
    rw [hregistered.unique r 0 0 hr hreader, hstart, hindex]
    decide
  have hpass := hpass hidle (hclear hunder) [8] ⟨by decide, by decide⟩
  rw [hindex] at hpass
  exact ⟨S, hrun, hindex, hpass⟩

/-- In a ring of one slot, a frame is published, and then a reader attaches and starts from the
edge. -/
def edgeRun : List Move :=
  (publishUnchecked [7] ++ attachFirst).map Action.move ++ [.begin 0 true]

/-- A reader that starts from the edge of a full ring holds the writer up: there is nothing for it
to read, and its cursor is zero. -/
theorem edge_reader_blocks :
    ∃ S, (loops (oneSlot true)).Reachable S ∧ S.ring.writer = .idle ∧
      (∃ i < maxReaders, (S.ring.readers i).pid ≠ 0) ∧
      (∀ i < maxReaders, (S.ring.readers i).pid ≠ 0 →
        ∃ r, (S.ring.handles r).reader = some i ∧ (S.clients r).start = S.ring.writeIndex ∧
          S.position r = some S.ring.writeIndex) ∧
      (oneSlot true).slotCount ≤ S.ring.writeIndex ∧
      ∃ i < maxReaders, (S.ring.readers i).pid ≠ 0 ∧
        (S.ring.readers i).cursor ≤ S.ring.writeIndex - (oneSlot true).slotCount := by
  have hfacts : ((loops (oneSlot true)).run (loops (oneSlot true)).start edgeRun).any
      (fun S => S.ring.writer = .idle ∧ (S.ring.readers 0).pid ≠ 0 ∧
        (∀ i < maxReaders, (S.ring.readers i).pid ≠ 0 → i = 0) ∧
        ((S.ring.handles 0).reader = some 0 ∧ (S.clients 0).start = S.ring.writeIndex ∧
          S.position 0 = some S.ring.writeIndex) ∧
        (oneSlot true).slotCount ≤ S.ring.writeIndex ∧
        (S.ring.readers 0).cursor ≤ S.ring.writeIndex - (oneSlot true).slotCount) = true := by
    decide +kernel
  obtain ⟨S, hrun, heq⟩ := (Option.any_eq_true _ _).mp hfacts
  obtain ⟨hidle, hpid, hzero, hreader, hfull, hcursor⟩ := of_decide_eq_true heq
  refine ⟨S, ⟨_, hrun⟩, hidle, ⟨0, by decide, hpid⟩, fun i hi hused => ?_, hfull, 0, by decide,
    hpid, hcursor⟩
  rw [hzero i hi hused]
  exact ⟨0, hreader⟩

end Shm
end PulseFanout
