import PiCloud.Sandbox.AgentRunHistory

/-!
# Sandbox.AgentRunReaping

The steps of the supervisor over many assignments: reaping, heartbeats, revocation and retirement.

* `Inv.reapExecution`, `Inv.reapOwner`: what reaping takes out of the memory.
* `foldl_clears`: a loop that clears each of its members.
* `Inv.retire`: nothing is prepared once admission is closed.
-/

namespace PiCloud
namespace Sandbox

open Lib

namespace Supervisor

variable {s t : Supervisor}

/-! ### Reaping -/

theorem Inv.isStale {closed : Prop} (hi : s.Inv closed) (c : ExecuteTurnCommand) :
    s.isStaleExecution c = true ↔
      ∃ d, (admittedSince s.log c.family).head? = some d ∧ Fences d.2 c := by
  unfold isStaleExecution
  rw [hi.owner]
  cases (admittedSince s.log c.family).head? with
  | none => simp
  | some d => simp [ownerOf, Fences]

theorem Inv.reapExecution {closed : Prop} (hi : s.Inv closed) {i : Nat} (hlt : i < s.fresh)
    (hsettled : (s.assignments i).settled = true) {retired : List Nat}
    (hdue : (s.assignments i).command.runId ∈ retired ∨
      s.isStaleExecution (s.assignments i).command = true)
    (hget : s.byExecution.get (s.assignments i).command.executionReference = some i) :
    Inv closed { s with
      byExecution := s.byExecution.delete (s.assignments i).command.executionReference
      log := s.log ++ [Event.reaped i (s.assignments i).command retired] } := by
  have hlog : ∀ f, admittedSince (s.log ++ [Event.reaped i (s.assignments i).command retired]) f =
      admittedSince s.log f := fun f => admittedSince_snoc s.log f _
  have hkept : ∀ r j, s.byExecution.get r = some j → j ≠ i →
      (s.byExecution.delete (s.assignments i).command.executionReference).get r = some j := by
    intro r j hr hji
    rw [InsertionMap.get_delete, if_neg]
    · exact hr
    · rintro rfl
      rw [hget] at hr
      exact hji (Option.some.inj hr).symm
  refine ⟨?_, ?_, hi.live, hi.wf, ?_, ?_, ?_, ?_, ?_, ?_, ?_, ?_, hi.contract.snoc ⟨?_, ?_⟩,
    hi.reaps⟩
  · intro k j hk
    obtain ⟨hj, hsession, hnot, hretained⟩ := hi.current k j hk
    refine ⟨hj, hsession, hnot, hkept _ j hretained ?_⟩
    rintro rfl
    exact absurd (hnot.symm.trans hsettled) (by rintro ⟨⟩)
  · intro r j hr
    dsimp only at hr ⊢
    rw [InsertionMap.get_delete] at hr
    split at hr
    · cases hr
    · rw [hlog]
      exact hi.retained r j hr
  · intro j hj hp
    dsimp only
    rw [hlog]
    exact hi.ready j hj hp
  · intro f
    dsimp only
    rw [hlog]
    exact hi.owner f
  · intro f d
    dsimp only
    rw [hlog]
    exact hi.newest f d
  · intro k
    dsimp only
    rw [currentOf_snoc]
    exact hi.tracked k
  · exact fun h => hi.retired (mem_of_mem_snoc h (by rintro ⟨⟩))
  · intro j c h
    have h := mem_of_mem_snoc h (by rintro ⟨⟩)
    obtain ⟨hj, hc, hpromise, hkeep⟩ := hi.started j c h
    refine ⟨hj, hc, hpromise, ?_⟩
    obtain ⟨retired, hreaped⟩ | hkeep := hkeep
    · exact .inl ⟨retired, List.mem_append_left _ hreaped⟩
    · by_cases hji : j = i
      · subst hji
        subst hc
        exact .inl ⟨retired, List.mem_append_right _ (List.mem_singleton.mpr rfl)⟩
      · exact .inr (hkept _ j hkeep hji)
  · exact fun j hj hidle hrunning => List.mem_append_left _ (hi.ended j hj hidle hrunning)
  · exact fun j c q h => hi.published j c q (mem_of_mem_snoc h (by rintro ⟨⟩))
  · intro d hd
    have hidle := (hi.started i d hd).2.2.1
    obtain h | ⟨outcome, h⟩ := (hi.wf i hlt).settled hsettled
    · exact absurd h hidle
    · refine hi.ended i hlt hidle ?_
      rw [h]
      rintro ⟨⟩
  · refine hdue.imp id fun hstale => ?_
    obtain ⟨d, hd, hfences⟩ := (hi.isStale _).mp hstale
    exact ⟨d, List.mem_of_mem_head? hd, hfences⟩

theorem Inv.reapOwner {closed : Prop} (hi : s.Inv closed) {f : Family} {o : Owner}
    {retired : List Nat} (hrun : o.lastRunId ∈ retired) (hget : s.highestEpochByFamily.get f = some o)
    (hretained : ∀ r i, s.byExecution.get r = some i → (s.assignments i).command.family ≠ f) :
    Inv closed { s with
      highestEpochByFamily := s.highestEpochByFamily.delete f
      log := s.log ++ [Event.forgot f retired] } := by
  have hlog : ∀ g, admittedSince (s.log ++ [Event.forgot f retired]) g =
      if f = g then [] else admittedSince s.log g := fun g => admittedSince_snoc s.log g _
  refine ⟨hi.current, ?_, hi.live, hi.wf, ?_, ?_, ?_, ?_, ?_, ?_, ?_, ?_, hi.contract.snoc ?_,
    hi.reaps⟩
  · intro r i hr
    dsimp only
    rw [hlog, if_neg (hretained r i hr).symm]
    exact hi.retained r i hr
  · intro i hlt hp
    obtain ⟨hopen, hfresh⟩ := hi.ready i hlt hp
    dsimp only
    rw [hlog]
    refine ⟨hopen, fun d hd => ?_⟩
    split at hd
    · cases hd
    · exact hfresh d hd
  · intro g
    dsimp only
    rw [hlog, InsertionMap.get_delete]
    by_cases hg : g = f
    · rw [if_pos hg, if_pos hg.symm]
      rfl
    · rw [if_neg hg, if_neg fun h => hg h.symm]
      exact hi.owner g
  · intro g d hd e he
    dsimp only at hd he
    rw [hlog] at hd he
    split at hd
    · cases hd
    · rename_i hne
      rw [if_neg hne] at he
      exact hi.newest g d hd e he
  · intro k
    dsimp only
    rw [currentOf_snoc]
    exact hi.tracked k
  · exact fun h => hi.retired (mem_of_mem_snoc h (by rintro ⟨⟩))
  · intro j c h
    have h := mem_of_mem_snoc h (by rintro ⟨⟩)
    obtain ⟨hj, hc, hpromise, hkept⟩ := hi.started j c h
    refine ⟨hj, hc, hpromise, hkept.imp_left ?_⟩
    exact fun ⟨retired, hreaped⟩ => ⟨retired, List.mem_append_left _ hreaped⟩
  · exact fun j hj hidle hrunning => List.mem_append_left _ (hi.ended j hj hidle hrunning)
  · exact fun j c q h => hi.published j c q (mem_of_mem_snoc h (by rintro ⟨⟩))
  · rw [hi.owner] at hget
    obtain ⟨d, hd, rfl⟩ := Option.map_eq_some_iff.mp hget
    exact ⟨d, hd, hrun⟩

theorem Keeps.reapExecution {r : Supervisor × List Nat} {i : Nat} {retired : List Nat}
    (hlt : i < r.1.fresh) (hsettled : (r.1.assignments i).settled = true) :
    Keeps r.1 (Supervisor.reapExecution retired r i).1 := by
  simp only [Supervisor.reapExecution]
  split
  · exact .refl _
  · rename_i hdue
    rw [not_or, not_and_or, not_not, not_not, Bool.not_eq_false] at hdue
    refine ⟨fun closed hi => hi.reapExecution hlt hsettled hdue.1 hdue.2, rfl, rfl, rfl, fun _ => rfl,
      fun _ => id, fun _ => id, fun _ => id, fun _ _ => id, fun k j h => ?_⟩
    dsimp only at h
    exact InsertionMap.get_delete_some h

theorem Keeps.reapCancellation (removed : List Nat) (s : Supervisor)
    (e : (ExecutionReference × Nat) × Nat) : Keeps s (s.reapCancellation removed e) := by
  unfold Supervisor.reapCancellation
  split
  · exact .congr rfl rfl rfl rfl rfl rfl (fun _ => id) rfl rfl
  · exact .refl s

theorem mem_retainedFamilies {r : ExecutionReference} {i : Nat} (h : s.byExecution.get r = some i) :
    (s.assignments i).command.family ∈ s.retainedFamilies := by
  unfold retainedFamilies
  rw [List.map_map]
  exact List.mem_map_of_mem (f := (fun i => (s.assignments i).command.family) ∘ Prod.snd)
    (InsertionMap.mem_entries.mpr h)

theorem Keeps.reapOwner {e : Family × Owner} {retired : List Nat} {retained : List Family}
    (hretained : ∀ r i, s.byExecution.get r = some i → (s.assignments i).command.family ∈ retained) :
    Keeps s (s.reapOwner retired retained e) := by
  unfold Supervisor.reapOwner
  split
  · rename_i h
    obtain ⟨hrun, hfamily, hget⟩ := h
    refine ⟨fun closed hi => hi.reapOwner hrun hget fun r i hr heq => hfamily ?_, rfl, rfl, rfl,
      fun _ => rfl, fun _ => id, fun _ => id, fun _ => id, fun _ _ => id, fun _ _ => id⟩
    rw [← heq]
    exact hretained r i hr
  · exact .refl s

theorem Keeps.reap {r : Reap} (hr : ∀ i ∈ r.completed, i < s.fresh ∧ (s.assignments i).settled = true)
    (retired : List Nat) : Keeps s (s.reap r retired) := by
  unfold Supervisor.reap
  dsimp only
  have hreaped : Keeps s (r.completed.foldl (Supervisor.reapExecution retired) (s, [])).1 := by
    refine Keeps.foldl (v := Prod.fst) (fun p i hi hp => ?_) (.refl s)
    obtain ⟨hlt, hsettled⟩ := hr i hi
    exact .reapExecution (hp.fresh ▸ hlt) (hp.settled i hsettled)
  generalize r.completed.foldl (Supervisor.reapExecution retired) (s, []) = reaped at hreaped
  have hpruned := Keeps.foldl (v := id) (f := Supervisor.reapCancellation reaped.2)
    (l := reaped.1.cancellationsByRequest.entries) (fun p e _ _ => .reapCancellation _ p e) hreaped
  dsimp only [id] at hpruned
  generalize reaped.1.cancellationsByRequest.entries.foldl (Supervisor.reapCancellation reaped.2)
    reaped.1 = pruned at hpruned
  refine hpruned.trans (Keeps.foldl (v := id) (fun p e _ hp => ?_) (.refl pruned))
  refine .reapOwner fun k i h => ?_
  rw [hp.command]
  exact mem_retainedFamilies (hp.retained k i h)

theorem Keeps.retiredRuns {closed : Prop} (hi : s.Inv closed) (j : Nat) (retired : Option (List Nat)) :
    Keeps s (s.retiredRuns j retired) := by
  unfold Supervisor.retiredRuns
  split
  · exact .refl s
  · rename_i r hr
    have herase : Keeps s { s with reaps := s.reaps.eraseIdx j } :=
      .congr rfl rfl rfl rfl rfl rfl (fun _ => List.mem_of_mem_eraseIdx) rfl rfl
    cases retired with
    | none => exact herase
    | some retired =>
      refine herase.trans (Keeps.reap (r := r) ?_ retired)
      exact fun i hmem => hi.reaps r (List.mem_of_getElem? hr) i hmem

theorem Keeps.reapSettled (s : Supervisor) : Keeps s s.reapSettled := by
  simp only [Supervisor.reapSettled]
  split
  · exact .refl s
  · refine ⟨fun closed hi => ?_, rfl, rfl, rfl, fun _ => rfl, fun _ => id, fun _ => id, fun _ => id,
      fun _ _ => id, fun _ _ => id⟩
    refine ⟨hi.current, hi.retained, hi.live, hi.wf, hi.ready, hi.owner, hi.newest, hi.tracked,
      hi.retired, hi.started, hi.ended, hi.published, hi.contract, fun r hr i hmem => ?_⟩
    obtain hr | rfl := mem_snoc.mp hr
    · exact hi.reaps r hr i hmem
    · obtain ⟨hmem, hsettled⟩ := List.mem_filter.mp hmem
      obtain ⟨⟨k, i⟩, he, rfl⟩ := List.mem_map.mp hmem
      exact ⟨(hi.retained k i (InsertionMap.mem_entries.mp he)).1, hsettled⟩

/-! ### Cancellations, heartbeats and revocation -/

theorem Keeps.acknowledged (s : Supervisor) (j : Nat) (ok : Bool) : Keeps s (s.acknowledged j ok) := by
  unfold Supervisor.acknowledged
  split
  · exact .refl s
  · rename_i i seq _
    split
    · have hedit : (s.assignments i).Edit { s.assignments i with lastAcknowledgedSeq := seq } :=
        ⟨rfl, rfl, id, id, Int.le_refl _, Iff.rfl, Iff.rfl,
          fun hw => ⟨hw.prepared, hw.started, hw.settled, hw.unsettled⟩⟩
      exact (Keeps.edit (f := fun a => { a with lastAcknowledgedSeq := seq }) hedit).trans
        (.congr rfl rfl rfl rfl rfl rfl (fun _ => id) rfl rfl)
    · exact .congr rfl rfl rfl rfl rfl rfl (fun _ => id) rfl rfl

theorem Keeps.editCancellation (s : Supervisor) (k : Nat) (state : CancellationState) :
    Keeps s (s.editCancellation k state) :=
  .congr rfl rfl rfl rfl rfl rfl (fun _ => id) rfl rfl

theorem Keeps.prepareCancellation (s : Supervisor) (c : CancelTurnCommand) :
    Keeps s (s.prepareCancellation c).1 := by
  simp only [Supervisor.prepareCancellation]
  split
  · exact .refl s
  · split
    · split <;> exact .refl s
    · split
      · exact .refl s
      · split
        · exact .refl s
        · split
          · exact .congr rfl rfl rfl rfl rfl rfl (fun _ => id) rfl rfl
          · exact .refl s

theorem Keeps.runCancellation (s : Supervisor) (k : Nat) : Keeps s (s.runCancellation k) := by
  simp only [Supervisor.runCancellation]
  split
  · exact .refl s
  · rename_i h
    rw [not_or, not_or, not_not, not_not] at h
    exact (Keeps.editCancellation s k .running).trans (.edit (.cancel h.2.1))

theorem Keeps.cancellationSettled (s : Supervisor) (k : Nat) : Keeps s (s.cancellationSettled k) := by
  unfold Supervisor.cancellationSettled
  split
  · split
    · exact .editCancellation ..
    · exact .editCancellation ..
    · exact .refl s
  · exact .refl s

theorem Keeps.releaseCancellation (s : Supervisor) (k : Nat) : Keeps s (s.releaseCancellation k) := by
  unfold Supervisor.releaseCancellation
  split
  · exact .congr rfl rfl rfl rfl rfl rfl (fun _ => id) rfl rfl
  · exact .refl s

theorem Keeps.acknowledgeFamily (heartbeat : Heartbeat) (ack : HeartbeatAck) (requestedAt now : Int)
    (r : Supervisor × AppliedHeartbeatResult) (i : Nat) :
    Keeps r.1 (Supervisor.acknowledgeFamily heartbeat ack requestedAt now r i).1 := by
  simp only [Supervisor.acknowledgeFamily]
  split
  · exact .refl _
  · split
    · exact .refl _
    · split
      · exact .refl _
      · split
        · exact .refl _
        · exact .revokeExecution i

theorem Keeps.applyHeartbeatAcknowledgement {r : Supervisor × AppliedHeartbeatResult} {j : Nat}
    {ack : HeartbeatAck} {now : Int} (h : s.applyHeartbeatAcknowledgement j ack now = .ok r) :
    Keeps s r.1 := by
  unfold Supervisor.applyHeartbeatAcknowledgement at h
  split at h
  · cases h
  · rename_i heartbeat _
    split at h
    · cases h
    · split at h
      · cases h
      · split at h
        · cases h
          exact .refl s
        · split at h
          · cases h
          · cases h
            refine Keeps.foldl (v := Prod.fst) (fun p i _ _ => .acknowledgeFamily _ _ _ _ p i) ?_
            exact .congr rfl rfl rfl rfl rfl rfl (fun _ => id) rfl rfl

theorem mem_currents {i : Nat} : i ∈ s.currents ↔ ∃ k, s.currentBySession.get k = some i := by
  unfold currents
  constructor
  · intro h
    obtain ⟨⟨k, i⟩, he, rfl⟩ := List.mem_map.mp h
    exact ⟨k, InsertionMap.mem_entries.mp he⟩
  · rintro ⟨k, hk⟩
    exact List.mem_map.mpr ⟨(k, i), InsertionMap.mem_entries.mpr hk, rfl⟩

theorem Keeps.revokeCancellation (r : Supervisor × RevokedSupervisorAssignments) (k : Nat) :
    Keeps r.1 (Supervisor.revokeCancellation r k).1 := by
  unfold Supervisor.revokeCancellation
  split
  · exact .refl _
  · exact .releaseCancellation ..

theorem Keeps.revokeAssignment {r : Supervisor × RevokedSupervisorAssignments} {i : Nat}
    (hlt : i < r.1.fresh) : Keeps r.1 (Supervisor.revokeAssignment r i).1 := by
  unfold Supervisor.revokeAssignment
  split
  · exact .releaseBeforeStart hlt
  · split
    · exact .revokeExecution i
    · exact .refl _

theorem Keeps.revokeAllAssignments {closed : Prop} (hi : s.Inv closed) :
    Keeps s s.revokeAllAssignments.1 := by
  unfold Supervisor.revokeAllAssignments
  refine Keeps.foldl (v := Prod.fst) (fun p i hmem hp => .revokeAssignment ?_)
    (Keeps.foldl (v := Prod.fst) (fun p k _ _ => .revokeCancellation p k) (.refl s))
  obtain ⟨k, hk⟩ := mem_currents.mp hmem
  exact hp.fresh ▸ (hi.current k i hk).1

theorem revokeAssignment_prepared (r : Supervisor × RevokedSupervisorAssignments) (i : Nat) :
    ((revokeAssignment r i).1.assignments i).state ≠ .prepared := by
  unfold revokeAssignment
  split
  · rename_i h
    unfold Supervisor.releaseBeforeStart
    rw [if_pos h]
    dsimp only
    rw [edit_assignments, if_pos rfl]
    nofun
  · rename_i h
    split
    · unfold Supervisor.revokeExecution
      rw [edit_assignments, if_pos rfl]
      exact mt (Assignment.Edit.revoke _).prepared h
    · exact h

theorem foldl_clears {α : Type} {f : α → Nat → α} {v : α → Supervisor} {xs : List Nat}
    {P : Supervisor → Nat → Prop} (hmono : ∀ t u x, Keeps t u → P u x → P t x)
    (hkeeps : ∀ r, ∀ x ∈ xs, Keeps s (v r) → Keeps (v r) (v (f r x)))
    (hstep : ∀ r, ∀ x ∈ xs, Keeps s (v r) → ¬ P (v (f r x)) x) {r : α}
    (hr : Keeps s (v r)) : ∀ x ∈ xs, ¬ P (v (xs.foldl f r)) x := by
  induction xs generalizing r with
  | nil => nofun
  | cons y xs ih =>
    intro x hx
    have htail : ∀ r, ∀ x ∈ xs, Keeps s (v r) → Keeps (v r) (v (f r x)) :=
      fun r x hx => hkeeps r x (List.mem_cons_of_mem y hx)
    have hhead := hkeeps r y List.mem_cons_self hr
    obtain rfl | hx := List.mem_cons.mp hx
    · have hrest := Keeps.foldl (s := v (f r x)) (v := v) (f := f) (l := xs)
        (fun r' z hz h => htail r' z hz ((hr.trans hhead).trans h)) (.refl _)
      exact mt (hmono _ _ x hrest) (hstep r x List.mem_cons_self hr)
    · exact ih htail (fun r x hx => hstep r x (List.mem_cons_of_mem y hx)) (hr.trans hhead) x hx

theorem Inv.mem_currents {closed : Prop} (hi : s.Inv closed) {i : Nat} (hlt : i < s.fresh)
    (hl : (s.assignments i).Live) : i ∈ s.currents :=
  Supervisor.mem_currents.mpr ⟨_, hi.live i hlt hl⟩

theorem Inv.live_of_prepared {closed : Prop} (hi : s.Inv closed) {i : Nat} (hlt : i < s.fresh)
    (hp : (s.assignments i).state = .prepared) : (s.assignments i).Live :=
  ⟨((hi.wf i hlt).prepared hp).2, .inl hp⟩

theorem Inv.revoked {closed : Prop} (hi : s.Inv closed) :
    ∀ i < s.fresh, (s.revokeAllAssignments.1.assignments i).state ≠ .prepared := by
  intro i hlt hp
  have hkeeps := Keeps.revokeAllAssignments hi
  have hcurrent := hi.mem_currents hlt (hi.live_of_prepared hlt (hkeeps.prepared i hp))
  unfold revokeAllAssignments at hp
  refine foldl_clears (s := s) (v := Prod.fst) (P := fun t x => (t.assignments x).state = .prepared)
    (fun t u x h => h.prepared x) ?_ (fun r x _ _ => revokeAssignment_prepared r x) ?_ i hcurrent hp
  · intro r x hx hr
    obtain ⟨k, hk⟩ := Supervisor.mem_currents.mp hx
    exact .revokeAssignment (hr.fresh ▸ (hi.current k x hk).1)
  · exact Keeps.foldl (v := Prod.fst) (fun p k _ _ => .revokeCancellation p k) (.refl s)

theorem Inv.retire {closed : Prop} (hi : s.Inv closed) : s.retire.1.Inv True := by
  have hi' : Inv closed { s with retiring := true } :=
    hi.congr rfl rfl rfl rfl rfl rfl fun _ => id
  have hkeeps := Keeps.revokeAllAssignments hi'
  have hrevoked := hi'.revoked
  have hr := hkeeps.inv closed hi'
  unfold Supervisor.retire
  dsimp only
  generalize { s with retiring := true }.revokeAllAssignments.1 = r at hkeeps hrevoked hr
  have hlog : ∀ f, admittedSince (r.log ++ [Event.retired]) f = admittedSince r.log f :=
    fun f => admittedSince_snoc r.log f _
  refine ⟨hr.current, ?_, hr.live, hr.wf, ?_, ?_, ?_, ?_, fun _ => trivial, ?_, ?_, ?_,
    hr.contract.snoc trivial, hr.reaps⟩
  · intro k i hk
    dsimp only
    rw [hlog]
    exact hr.retained k i hk
  · intro i hlt hp
    exact absurd hp (hrevoked i (hkeeps.fresh ▸ hlt))
  · intro f
    dsimp only
    rw [hlog]
    exact hr.owner f
  · intro f d
    dsimp only
    rw [hlog]
    exact hr.newest f d
  · intro k
    dsimp only
    rw [currentOf_snoc]
    exact hr.tracked k
  · intro j c h
    have h := mem_of_mem_snoc h (by rintro ⟨⟩)
    obtain ⟨hj, hc, hpromise, hkept⟩ := hr.started j c h
    refine ⟨hj, hc, hpromise, hkept.imp_left ?_⟩
    exact fun ⟨retired, hreaped⟩ => ⟨retired, List.mem_append_left _ hreaped⟩
  · exact fun j hj hidle hrunning => List.mem_append_left _ (hr.ended j hj hidle hrunning)
  · exact fun j c q h => hr.published j c q (mem_of_mem_snoc h (by rintro ⟨⟩))

end Supervisor

end Sandbox
end PiCloud
