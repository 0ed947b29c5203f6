import PiCloud.Runtime.LaneInvariant

/-!
# Runtime.QuarantineRecovery

A session that a failure moved to `failed` leaves that state through `recoverQuarantinedSession`
or through a prune. The first has the exit and the seal of the Run that failed; the second has the
seal, and no guard for the exit.

* `exitConfirmed_stopped`: the Run that a recovery is called for is the one that failed.
* `Lane.step_apply`, `Lane.step_prune`: one operation.
* `quarantine_kept`: over a run, sessions leave `failed` stopped iff every prune finds the exit.
-/

namespace PiCloud
namespace Runtime
namespace Quarantine

open Lib

section Recovery

variable {l : Lane} {run : Nat}

theorem exitConfirmed_stopped (hi : l.Inv) (hf : l.state = .failed)
    (hc : l.exitConfirmed run = true) : l.Stopped := by
  obtain ⟨k, f, hk, hlast⟩ := hi.failing hf
  unfold Lane.exitConfirmed at hc
  cases hr : l.runs.get run with
  | none =>
    rw [hr] at hc
    cases hc
  | some r =>
    simp only [hr, Bool.and_eq_true, List.all_eq_true] at hc
    obtain ⟨⟨⟨-, hexit⟩, hseal⟩, hlater⟩ := hc
    have hlater : ∀ j q, l.runs.get j = some q → r.mailboxPosition < q.mailboxPosition →
        q.begun = false := by
      intro j q hj hlt
      have := hlater q (Table.mem_rows.mpr ⟨j, hj⟩)
      simpa only [hlt, decide_true, Bool.not_true, Bool.false_or, Bool.not_eq_true'] using this
    have hle := hlast.last hr ((hi.rows.sound hr).sealed hseal)
    have hge : f.mailboxPosition ≤ r.mailboxPosition := by
      by_contra hlt
      have := hlater k f hlast.row (by omega)
      rw [Run.begun, hlast.started, Bool.true_or] at this
      cases this
    have := hi.rows.distinct hr hlast.row (by omega)
    subst this
    exact ⟨run, r, hk, hr, hexit, hseal, hlater⟩

theorem recover_eq (l : Lane) (run : Nat) : l.recoverQuarantinedSession run = l ∨
    (l.state = .failed ∧ l.exitConfirmed run = true ∧
      (∀ k r, l.runs.get k = some r → r.state.active = false) ∧
      l.recoverQuarantinedSession run = Lane.advanceLaneReadiness { l with state := .idle }) := by
  unfold Lane.recoverQuarantinedSession
  split
  · rename_i hc
    simp only [Bool.and_eq_true, List.all_eq_true, Bool.not_eq_true', decide_eq_true_eq] at hc
    exact .inr ⟨hc.1.1.1.1, hc.1.1.2,
      fun k r hk => hc.1.2 r (Table.mem_rows.mpr ⟨k, hk⟩), rfl⟩
  · exact .inl rfl

theorem Lane.Inv.recover (hi : l.Inv) (run : Nat) : (l.recoverQuarantinedSession run).Inv := by
  obtain heq | ⟨-, -, hnone, heq⟩ := recover_eq l run
  · rw [heq]
    exact hi
  · rw [heq]
    refine Lane.Inv.advance ⟨hi.rows, ?_, nofun⟩
    intro k r hk ha
    rw [hnone k r hk] at ha
    cases ha

theorem recover_stopped (hi : l.Inv) (hf : l.state = .failed)
    (hne : (l.recoverQuarantinedSession run).state ≠ .failed) :
    (l.recoverQuarantinedSession run).Stopped := by
  obtain heq | ⟨-, hc, -, heq⟩ := recover_eq l run
  · rw [heq] at hne
    exact absurd hf hne
  · rw [heq]
    obtain ⟨k, f, hstop⟩ := exitConfirmed_stopped hi hf hc
    exact stopped_advance.mpr ⟨k, f, hstop⟩

end Recovery

section Transitions

theorem transitionLockedRun_eq {a b c : RunState} (h : transitionLockedRun a b = some c) : c = b := by
  unfold transitionLockedRun at h
  split at h
  · cases h
    assumption
  · unfold transitionRun at h
    split at h
    · exact (Option.some.inj h).symm
    · cases h

theorem transitionSession_eq {a b c : SessionState} (h : transitionSession a b = some c) : c = b := by
  unfold transitionSession at h
  split at h
  · exact (Option.some.inj h).symm
  · cases h

theorem requestSeal_eq {r p : Run} {factId : Nat} {body : SealBody}
    (h : requestExecutionStreamSeal r factId body = some p) :
    ∃ fact recovery, p = { r with outputSeal := some fact, recoveryRequestedAt := recovery } := by
  unfold requestExecutionStreamSeal at h
  split at h
  · cases h
  · split at h
    · rename_i fact hfact
      cases h
      exact ⟨fact, r.recoveryRequestedAt, by rw [← hfact]⟩
    · cases h
      exact ⟨_, _, rfl⟩

theorem Run.Sound.of_started {p : Run} (hp : p.startedAt = true) (hq : p.state ≠ .queued) :
    p.Sound :=
  ⟨fun _ => hp, fun _ => hp, fun _ => hp, fun _ => hp, fun h => absurd h hq⟩

theorem Run.Sound.grant {r : Run} (hs : r.Sound) {lease : Nat} (h : r.currentGrant lease = true) :
    r.startedAt = true ∧ r.state ≠ .queued := by
  simp only [Run.currentGrant, Bool.and_eq_true, decide_eq_true_eq] at h
  refine ⟨hs.owned (by rw [h.1]; rfl), ?_⟩
  intro hq
  rw [(hs.queued hq).1] at h
  cases h.1

end Transitions

/-- What an operation keeps: the invariant, and the evidence when it takes a session out of
`failed`. -/
structure Lane.Step (l l' : Lane) : Prop where
  inv : l'.Inv
  left : l.state = .failed → l'.state ≠ .failed → l'.Stopped

namespace Lane

variable {l l' : Lane} {k : Nat} {r : Run}

theorem Step.same (hi : l'.Inv) (h : l'.state = l.state) : Step l l' :=
  ⟨hi, fun hf hne => absurd (h.trans hf) hne⟩

theorem Step.alive (hi : l'.Inv) (h : l.state ≠ .failed) : Step l l' :=
  ⟨hi, fun hf => absurd hf h⟩

theorem Inv.settle (hi : l.Inv) (hk : l.runs.get k = some r) (ha : r.state.active = true) {p : Run}
    (hpos : p.mailboxPosition = r.mailboxPosition) (hp : p.state.active = false) (hs : p.Sound)
    (hnext : l'.nextMailboxPosition = l.nextMailboxPosition) (hruns : l'.runs = l.runs.set k p)
    (hfail : l'.state = .failed → l'.failing = some k ∧ isTerminalRunState p.state = true ∧
      p.startedAt = true ∧ p.outputSeal.isSome = true) : l'.Inv where
  rows := by
    rw [hnext, hruns]
    exact hi.rows.requeue hk hpos ha hs
  active {j q} hj hq := by
    rw [hruns] at hj
    rw [hi.rows.none_active hk ha hp hj] at hq
    cases hq
  failing hf := by
    obtain ⟨hfailing, hterm, hstart, hseal⟩ := hfail hf
    rw [hruns]
    refine ⟨k, p, hfailing, Table.get_set_self .., hterm, hstart, hseal, ?_⟩
    intro j q hj hq
    rw [Table.get_set] at hj
    split at hj
    · cases hj
      exact Nat.le_refl _
    · rw [hpos]
      by_contra hlt
      -- a later Run that was started would have found this one terminal
      have := not_active_of_terminal (hi.rows.ordered hj (.inl hq) hk (by omega))
      rw [this] at ha
      cases ha

theorem Inv.activeRunning (hi : l.Inv) (hk : l.runs.get k = some r) (ha : r.state.active = true) :
    l.state ≠ .failed := by
  intro hf
  obtain h | h := hi.active hk ha <;> rw [h] at hf <;> cases hf

theorem step_acceptInput (hi : l.Inv) {run : Nat} {chat : Bool}
    (h : l.acceptInput run chat = some l') : Step l l' := by
  unfold Lane.acceptInput at h
  obtain ⟨hg, h⟩ := guard_some h
  cases h
  simp only [Bool.and_eq_true, Option.isNone_iff_eq_none, decide_eq_true_eq] at hg
  obtain ⟨⟨-, hstate⟩, hnone⟩ := hg
  refine .alive ⟨?_, ?_, fun hf => absurd hf hstate⟩ hstate
  · constructor
    · intro i x hx
      rw [Table.get_set] at hx
      split at hx
      · cases hx
        exact Nat.lt_succ_self _
      · exact Nat.lt_succ_of_lt (hi.rows.bounded hx)
    · intro i j x y hx hy heq
      rw [Table.get_set] at hx hy
      split at hx <;> split at hy
      · simp only [*]
      · cases hx
        have := hi.rows.bounded hy
        simp only at heq
        omega
      · cases hy
        have := hi.rows.bounded hx
        simp only at heq
        omega
      · exact hi.rows.distinct hx hy heq
    · intro i j x y hx hf hy hlt
      rw [Table.get_set] at hx hy
      split at hx <;> split at hy
      · cases hx
        cases hy
        omega
      · cases hx
        obtain hf | hf := hf
        · cases hf
        · exact dependencies_terminal hf hy hlt
      · cases hy
        have := hi.rows.bounded hx
        simp only at hlt
        omega
      · exact hi.rows.ordered hx hf hy hlt
    · intro i x hx
      rw [Table.get_set] at hx
      split at hx
      · cases hx
        exact ⟨nofun, nofun, nofun, nofun, fun _ => ⟨rfl, rfl⟩⟩
      · exact hi.rows.sound hx
  · intro i x hx ha
    rw [Table.get_set] at hx
    split at hx
    · cases hx
      cases ha
    · exact hi.active hx ha

theorem step_cancel (hi : l.Inv) (hk : l.runs.get k = some r) :
    Step l (advanceLaneReadiness (l.setRun k { r with state := .cancelled, readyAt := false })) := by
  have hs := hi.rows.sound hk
  refine .same (Inv.advance ?_) rfl
  refine hi.setRun hk rfl (fun _ => rfl) nofun rfl nofun id ?_
  refine ⟨hs.owned, hs.requested, hs.sealed, nofun, nofun⟩

theorem step_claim (hi : l.Inv) {run lease : Nat} (h : l.claim run lease = some l') : Step l l' := by
  unfold Lane.claim at h
  obtain ⟨r, hr, h⟩ := bind_some h
  obtain ⟨hg, h⟩ := guard_some h
  obtain ⟨hstate, h⟩ := guard_some h
  cases h
  simp only [Bool.and_eq_true, Bool.or_eq_true, decide_eq_true_eq] at hg hstate
  refine .alive ⟨?_, fun _ _ => .inl rfl, nofun⟩ ?_
  · refine hi.rows.set hr rfl ?_ (fun _ => .inr hg.1.1.2) (.of_started rfl nofun)
    intro hterm
    rw [hg.1.1.1] at hterm
    cases hterm
  · intro hf
    rw [hf] at hstate
    obtain hc | hc := hstate <;> cases hc

theorem step_recordFailure (hi : l.Inv) {run lease factId : Nat} {timedOut q : Bool}
    (h : l.recordFailure run lease factId timedOut q = some l') : Step l l' := by
  unfold Lane.recordFailure at h
  obtain ⟨r, hr, h⟩ := bind_some h
  obtain ⟨hg, h⟩ := guard_some h
  obtain ⟨state, hstate, h⟩ := bind_some h
  obtain ⟨p, hp, h⟩ := bind_some h
  obtain ⟨hsession, h⟩ := guard_some h
  obtain ⟨next, hnext, h⟩ := bind_some h
  cases h
  simp only [Bool.and_eq_true, decide_eq_true_eq] at hg
  obtain ⟨fact, recovery, rfl⟩ := requestSeal_eq hp
  have hstate := transitionLockedRun_eq hstate
  have hnext := transitionSession_eq hnext
  have ha : r.state.active = true := by rw [hg.1]; rfl
  have hstart := ((hi.rows.sound hr).grant hg.2).1
  have hterm : isTerminalRunState state = true := by
    rw [hstate]
    cases timedOut <;> rfl
  refine .alive ?_ (hi.activeRunning hr ha)
  refine hi.settle hr ha (p := { r with
    state, outputSeal := some fact, recoveryRequestedAt := recovery, executionReleasedAt := true })
    rfl (not_active_of_terminal hterm) (.of_started hstart ?_) rfl rfl ?_
  · intro hq
    rw [show state = .queued from hq] at hterm
    cases hterm
  · intro hf
    cases q with
    | false =>
      rw [show next = .idle from hnext] at hf
      cases hf
    | true => exact ⟨rfl, hterm, hstart, rfl⟩

theorem step_cancellationFailed (hi : l.Inv) {run lease factId : Nat}
    (h : l.cancellationFailed run lease factId = some l') : Step l l' := by
  unfold Lane.cancellationFailed at h
  obtain ⟨r, hr, h⟩ := bind_some h
  obtain ⟨hg, h⟩ := guard_some h
  obtain ⟨state, hstate, h⟩ := bind_some h
  obtain ⟨next, hnext, h⟩ := bind_some h
  obtain ⟨p, hp, h⟩ := bind_some h
  obtain ⟨hgrant, h⟩ := guard_some h
  cases h
  simp only [Bool.and_eq_true, decide_eq_true_eq] at hg
  obtain ⟨fact, recovery, rfl⟩ := requestSeal_eq hp
  obtain rfl := transitionLockedRun_eq hstate
  have ha : r.state.active = true := by rw [hg.1]; rfl
  have hstart := ((hi.rows.sound hr).grant hgrant).1
  refine .alive ?_ (hi.activeRunning hr ha)
  exact hi.settle hr ha (p := { r with
    state := .failed, outputSeal := some fact, recoveryRequestedAt := recovery
    executionReleasedAt := true })
    rfl rfl (.of_started hstart nofun) rfl rfl fun _ => ⟨rfl, rfl, hstart, rfl⟩

theorem step_markStarted (hi : l.Inv) {run lease : Nat} (h : l.markStarted run lease = some l') :
    Step l l' := by
  unfold Lane.markStarted at h
  obtain ⟨r, hr, h⟩ := bind_some h
  obtain ⟨hg, h⟩ := guard_some h
  obtain ⟨state, hstate, h⟩ := bind_some h
  obtain ⟨next, hnext, h⟩ := bind_some h
  cases h
  simp only [Bool.and_eq_true, decide_eq_true_eq] at hg
  obtain rfl := transitionLockedRun_eq hstate
  obtain rfl := transitionSession_eq hnext
  have ha : r.state.active = true := by rw [hg.1.1]; rfl
  have hstart := ((hi.rows.sound hr).grant hg.2).1
  refine .alive ⟨?_, fun _ _ => .inr rfl, nofun⟩ (hi.activeRunning hr ha)
  exact hi.rows.requeue hr rfl ha (.of_started hstart nofun)

theorem step_requestRecovery (hi : l.Inv) {run lease factId : Nat}
    (h : l.requestRecovery run lease factId = some l') : Step l l' := by
  unfold Lane.requestRecovery at h
  obtain ⟨r, hr, h⟩ := bind_some h
  split at h
  · cases h
    exact .same hi rfl
  · obtain ⟨hg, h⟩ := guard_some h
    obtain ⟨p, hp, h⟩ := bind_some h
    cases h
    obtain ⟨fact, recovery, rfl⟩ := requestSeal_eq hp
    obtain ⟨hstart, hq⟩ := (hi.rows.sound hr).grant hg
    exact .same (hi.setRun hr rfl id id rfl id (fun _ => rfl) (.of_started hstart hq)) rfl

theorem step_reconcile (hi : l.Inv) {run lease factId : Nat}
    (h : l.reconcile run lease factId = some l') : Step l l' := by
  unfold Lane.reconcile at h
  obtain ⟨r, hr, h⟩ := bind_some h
  obtain ⟨hg, h⟩ := guard_some h
  obtain ⟨hstart, hq⟩ := (hi.rows.sound hr).grant hg
  split at h
  · obtain ⟨-, h⟩ := guard_some h
    obtain ⟨p, hp, h⟩ := bind_some h
    cases h
    obtain ⟨fact, recovery, rfl⟩ := requestSeal_eq hp
    exact .same (hi.setRun hr rfl id id rfl id (fun _ => rfl) (.of_started hstart hq)) rfl
  · obtain ⟨-, h⟩ := guard_some h
    cases h
    exact .same (hi.setRun hr rfl id id rfl id id (.of_started hstart hq)) rfl

theorem step_projectNative (hi : l.Inv) {run writer : Nat} {pending : Bool}
    (h : l.projectNative run writer pending = some l') : Step l l' := by
  unfold Lane.projectNative at h
  obtain ⟨r, hr, h⟩ := bind_some h
  obtain ⟨-, h⟩ := guard_some h
  cases h
  exact .same ⟨hi.rows, hi.active, hi.failing⟩ rfl

theorem step_confirmAgentExit (hi : l.Inv) {run lease : Nat}
    (h : l.confirmAgentExit run lease = some l') : Step l l' := by
  unfold Lane.confirmAgentExit at h
  obtain ⟨r, hr, h⟩ := bind_some h
  split at h
  · cases h
    exact .same hi rfl
  · cases h
    have hs := hi.rows.sound hr
    have hexit := hi.setRun hr (p := { r with agentExitedAt := true }) rfl id id rfl id id
      ⟨hs.owned, hs.requested, hs.sealed, hs.active, hs.queued⟩
    exact ⟨hexit.recover run, fun hf => recover_stopped hexit hf⟩

theorem step_recover (hi : l.Inv) (run : Nat) : Step l (l.recoverQuarantinedSession run) :=
  ⟨hi.recover run, recover_stopped hi⟩

theorem active_of_open {r : Run} (hq : r.state ≠ .queued) (h : isTerminalRunState r.state = false) :
    r.state.active = true := by
  revert hq h
  cases r.state <;> simp only [isTerminalRunState, RunState.active] <;> decide

theorem open_of_queued {a b : RunState} (h : transitionLockedRun a .queued = some b) :
    isTerminalRunState a = false := by
  cases a <;> first | rfl | cases h

theorem step_projectSeal (hi : l.Inv) {run writer factId : Nat} {writerSealed : Bool}
    (h : l.projectSeal run writer factId writerSealed = some l') : Step l l' := by
  unfold Lane.projectSeal at h
  obtain ⟨r, hr, h⟩ := bind_some h
  split at h
  · cases h
    exact .same hi rfl
  obtain ⟨fact, hfact, h⟩ := bind_some h
  obtain ⟨-, h⟩ := guard_some h
  split at h
  · cases h
    exact .same hi rfl
  have hs := hi.rows.sound hr
  have hstart : r.startedAt = true := hs.requested (by rw [hfact]; rfl)
  have hqueued : r.state ≠ .queued := by
    intro hq
    rw [(hs.queued hq).2] at hfact
    cases hfact
  obtain ⟨released, hreleased⟩ : ∃ released, (if r.leaseId = some writer then
      { r with executionReleasedAt := true } else r) = { r with executionReleasedAt := released } := by
    split
    · exact ⟨true, rfl⟩
    · exact ⟨r.executionReleasedAt, rfl⟩
  simp only [hreleased] at h
  split at h
  · obtain ⟨state, hstate, h⟩ := bind_some h
    have ha := active_of_open hqueued (open_of_queued hstate)
    obtain rfl := transitionLockedRun_eq hstate
    cases h
    refine .alive (Inv.advance ?_) (hi.activeRunning hr ha)
    exact hi.settle hr ha (p := { r with executionReleasedAt := released }.requeued .queued)
      rfl rfl ⟨fun _ => hstart, fun _ => hstart, fun _ => hstart, fun _ => hstart,
        fun _ => ⟨rfl, rfl⟩⟩ rfl rfl nofun
  · rename_i event _
    cases h
    have hsealed := hi.setRun hr
      (p := { r with executionReleasedAt := released, outputSealedAt := true })
      rfl id id rfl id id (.of_started hstart hqueued)
    cases event with
    | failed timedOut =>
      refine ⟨(hsealed.recover run).advance, ?_⟩
      intro hf hne
      exact stopped_advance.mpr (recover_stopped hsealed hf hne)
    | completed => exact .same hsealed.advance rfl
    | cancelled => exact .same hsealed.advance rfl

theorem step_workFinished (hi : l.Inv) {run writer : Nat} {terminal : Terminal}
    (h : l.workFinished run writer terminal = some l') : Step l l' := by
  unfold Lane.workFinished at h
  obtain ⟨r, hr, h⟩ := bind_some h
  split at h
  · cases h
    exact .same hi rfl
  rename_i howner
  simp only [Bool.or_eq_true, decide_eq_true_eq, not_or, not_not] at howner
  have hs := hi.rows.sound hr
  have hstart : r.startedAt = true := hs.owned (by rw [howner.1]; rfl)
  have hqueued : r.state ≠ .queued := by
    intro hq
    rw [(hs.queued hq).1] at howner
    cases howner.1
  unfold Lane.finishWorkIn at h
  split at h
  · cases h
    exact .same (hi.setRun hr rfl id id rfl id id (.of_started hstart hqueued)) rfl
  · rename_i hopen
    obtain ⟨current, -, h⟩ := bind_some h
    obtain ⟨state, hstate, h⟩ := bind_some h
    cases h
    have ha := active_of_open hqueued (Bool.not_eq_true _ ▸ hopen)
    have hterm : isTerminalRunState state = true := by
      rw [transitionLockedRun_eq hstate]
      cases terminal with
      | completed => rfl
      | cancelled => rfl
      | failed timedOut => cases timedOut <;> rfl
    refine .alive (Inv.advance ?_) (hi.activeRunning hr ha)
    refine hi.settle hr ha (p := { r with
        state, outputSealedAt := true, executionReleasedAt := true, agentExitedAt := true
        recoveryRequestedAt := false })
      rfl (not_active_of_terminal hterm) (.of_started hstart ?_) rfl rfl nofun
    intro hq
    rw [show state = .queued from hq] at hterm
    cases hterm

theorem prune_state {anchor : Nat} (h : l.prune anchor = some l') : l'.state = .idle := by
  unfold Lane.prune at h
  iterate 5 obtain ⟨-, h⟩ := guard_some h
  cases h
  rfl

/-- A prune leaves `failed` with the seal of the failed Run, and with its exit only if it is there. -/
theorem step_prune (hi : l.Inv) {anchor : Nat} (h : l.prune anchor = some l') :
    l'.Inv ∧ (l.state = .failed → (l'.Stopped ↔
      ∃ k f, l.failing = some k ∧ l.runs.get k = some f ∧ f.agentExitedAt = true)) := by
  unfold Lane.prune at h
  obtain ⟨-, h⟩ := guard_some h
  obtain ⟨hstate, h⟩ := guard_some h
  obtain ⟨-, h⟩ := guard_some h
  obtain ⟨hseals, h⟩ := guard_some h
  obtain ⟨-, h⟩ := guard_some h
  cases h
  have hsame : ∀ j q, l.runs.get j = some q → Run.Same q
      (if anchor < q.mailboxPosition then { q with prunedAt := true } else q) := by
    intro j q _
    split
    · exact ⟨rfl, rfl, rfl, rfl, rfl, rfl, rfl⟩
    · exact .refl q
  constructor
  · have hmap := hi.mapRows fun j q hj => ⟨hsame j q hj, fun hready => .inl (by
      split at hready <;> exact hready)⟩
    refine ⟨hmap.rows, ?_, nofun⟩
    intro k r hk ha
    obtain hr | hr := hmap.active hk ha <;> rw [show l.state = _ from hr] at hstate <;>
      exact absurd hstate (by decide)
  · intro hf
    rw [same_mapRows_begun hsame]
    obtain ⟨k, f, hk, hlast⟩ := hi.failing hf
    constructor
    · rintro ⟨k, f, hk, hrow, hexit, -⟩
      exact ⟨k, f, hk, hrow, hexit⟩
    · rintro ⟨k', f', hk', hrow, hexit⟩
      rw [hk] at hk'
      cases hk'
      rw [hlast.row] at hrow
      cases hrow
      simp only [List.all_eq_true] at hseals
      have hseal := hseals f (Table.mem_rows.mpr ⟨k, hlast.row⟩)
      simp only [Run.pendingSeal, hlast.requested, Bool.true_and, Bool.not_not] at hseal
      refine ⟨k, f, hk, hlast.row, hexit, hseal, ?_⟩
      intro j q hj hlt
      refine (hi.rows.sound hj).begun (Bool.eq_false_iff.mpr fun hq => ?_)
      have := hlast.last hj hq
      omega

theorem step_moveInput (hi : l.Inv) {run other : Nat} (h : l.moveInput run other = some l') :
    Step l l' := by
  unfold Lane.moveInput at h
  obtain ⟨r, hr, h⟩ := bind_some h
  obtain ⟨o, ho, h⟩ := bind_some h
  obtain ⟨hg, h⟩ := guard_some h
  obtain ⟨-, h⟩ := guard_some h
  cases h
  simp only [Run.editable, Bool.and_eq_true, decide_eq_true_eq, Bool.not_eq_true'] at hg
  obtain ⟨⟨⟨⟨⟨⟨-, hqr⟩, -⟩, hsr⟩, ⟨⟨⟨-, hqo⟩, -⟩, hso⟩⟩, -⟩, hne⟩ := hg
  have hget := fun i x => Rows.get_swap (i := i) (x := x) hr ho hne hqr hqo hsr hso
  refine .same (Inv.advance ⟨hi.rows.swap hr ho hne hqr hqo hsr hso, ?_, ?_⟩) rfl
  · intro i x hx ha
    obtain ⟨y, hy, -, ⟨rfl, -⟩ | ⟨-, hx, -⟩⟩ := hget i x hx
    · exact hi.active hy ha
    · rw [hx] at ha
      cases ha
  · intro hf
    obtain ⟨k, f, hkf, hlast⟩ := hi.failing hf
    have hk : k ≠ run ∧ k ≠ other := by
      constructor <;> rintro rfl
      · rw [hlast.row] at hr
        cases hr
        rw [hlast.started] at hsr
        cases hsr
      · rw [hlast.row] at ho
        cases ho
        rw [hlast.started] at hso
        cases hso
    refine ⟨k, f, hkf, ?_, hlast.terminal, hlast.started, hlast.requested, ?_⟩
    · unfold Lane.setRun
      rw [Table.get_set, if_neg hk.2, Table.get_set, if_neg hk.1]
      exact hlast.row
    · intro i x hx hstart
      obtain ⟨y, hy, -, ⟨rfl, -⟩ | ⟨hnot, -⟩⟩ := hget i x hx
      · exact hlast.last hy hstart
      · exact absurd (.inl hstart) hnot

theorem step_apply (hi : l.Inv) {op : LaneOp} (hp : ∀ anchor, op ≠ .prune anchor)
    (h : l.apply op = some l') : Step l l' := by
  cases op with
  | acceptInput run chat => exact step_acceptInput hi h
  | moveInput run other => exact step_moveInput hi h
  | cancelInput run =>
    obtain ⟨r, hr, h⟩ := bind_some (show l.cancelInput run = some l' from h)
    obtain ⟨-, h⟩ := guard_some h
    cases h
    exact step_cancel hi hr
  | cancelTurn run =>
    obtain ⟨r, hr, h⟩ := bind_some (show l.cancelTurn run = some l' from h)
    obtain ⟨-, h⟩ := guard_some h
    cases h
    exact step_cancel hi hr
  | claim run lease => exact step_claim hi h
  | projectNative run writer pending => exact step_projectNative hi h
  | recordFailure run lease factId timedOut q => exact step_recordFailure hi h
  | requestRecovery run lease factId => exact step_requestRecovery hi h
  | reconcile run lease factId => exact step_reconcile hi h
  | markStarted run lease => exact step_markStarted hi h
  | cancellationFailed run lease factId => exact step_cancellationFailed hi h
  | projectSeal run writer factId writerSealed => exact step_projectSeal hi h
  | workFinished run writer terminal => exact step_workFinished hi h
  | confirmAgentExit run lease => exact step_confirmAgentExit hi h
  | recover run =>
    cases h
    exact step_recover hi run
  | prune anchor => exact absurd rfl (hp anchor)

end Lane

section Runs

def Db.Inv (db : Db) : Prop := ∀ s l, db.get s = some l → l.Inv

def Lane.FailureExited (l : Lane) : Prop :=
  ∃ k f, l.failing = some k ∧ l.runs.get k = some f ∧ f.agentExitedAt = true

/-- What a step takes out of `failed` is stopped. -/
def Released (db db' : Db) : Prop :=
  ∀ s l l', db.get s = some l → db'.get s = some l' → l.state = .failed → l'.state ≠ .failed →
    l'.Stopped

def ExitRecorded (db : Db) : Op → Prop
  | .on s (.prune _) => ∀ l, db.get s = some l → l.state = .failed → l.FailureExited
  | _ => True

/-- `P` holds of each step of a run. A transaction that rolls back is no step. -/
def Over (P : Db → Op → Db → Prop) : Db → List Op → Prop
  | _, [] => True
  | db, op :: ops =>
    match db.step op with
    | some db' => P db op db' ∧ Over P db' ops
    | none => Over P db ops

def Db.run (db : Db) (ops : List Op) : Db := ops.foldl (fun db op => (db.step op).getD db) db

theorem Db.run_cons (db : Db) (op : Op) (ops : List Op) :
    db.run (op :: ops) = ((db.step op).getD db).run ops := rfl

theorem Over.last {P : Db → Op → Db → Prop} {db db' : Db} {ops : List Op} {op : Op}
    (h : Over P db (ops ++ [op])) (hs : (db.run ops).step op = some db') : P (db.run ops) op db' := by
  induction ops generalizing db with
  | nil =>
    have hs : db.step op = some db' := hs
    simp only [List.nil_append, Over, hs] at h
    exact h.1
  | cons first ops ih =>
    rw [List.cons_append, Over] at h
    rw [Db.run_cons] at hs ⊢
    cases hstep : db.step first with
    | none =>
      simp only [hstep, Option.getD_none] at h hs ⊢
      exact ih h hs
    | some next =>
      simp only [hstep, Option.getD_some] at h hs ⊢
      exact ih h.2 hs

theorem Over.congr {P Q : Db → Op → Db → Prop} {db : Db} (hi : db.Inv)
    (hpq : ∀ db op db', db.Inv → db.step op = some db' → db'.Inv ∧ (P db op db' ↔ Q db op db'))
    (ops : List Op) : Over P db ops ↔ Over Q db ops := by
  induction ops generalizing db with
  | nil => exact Iff.rfl
  | cons op ops ih =>
    unfold Over
    cases hstep : db.step op with
    | none => exact ih hi
    | some next =>
      obtain ⟨hnext, hiff⟩ := hpq db op next hi hstep
      exact and_congr hiff (ih hnext)

theorem released_on {db : Db} (hi : db.Inv) {s : Nat} {op : LaneOp} {l l' : Lane}
    (hl : db.get s = some l) (h : l.apply op = some l') :
    Db.Inv (db.set s l') ∧ (Released db (db.set s l') ↔ ExitRecorded db (.on s op)) := by
  have hkept : l'.Inv → Db.Inv (db.set s l') := by
    intro hl' t x hx
    rw [Table.get_set] at hx
    split at hx
    · cases hx
      exact hl'
    · exact hi t x hx
  have hone : Released db (db.set s l') ↔
      (l.state = .failed → l'.state ≠ .failed → l'.Stopped) := by
    constructor
    · intro hr
      exact hr s l l' hl (Table.get_set_self ..)
    · intro hr t x x' hx hx' hf hne
      rw [Table.get_set] at hx'
      split at hx'
      · rename_i hts
        subst hts
        cases hx'
        rw [hl] at hx
        cases hx
        exact hr hf hne
      · rw [hx] at hx'
        cases hx'
        exact absurd hf hne
  rw [hone]
  by_cases hp : ∃ anchor, op = .prune anchor
  · obtain ⟨anchor, rfl⟩ := hp
    obtain ⟨hl', hstop⟩ := Lane.step_prune (hi s l hl) h
    refine ⟨hkept hl', ?_⟩
    have hidle : l'.state ≠ .failed := by
      rw [Lane.prune_state h]
      nofun
    constructor
    · intro hr x hx hf
      rw [hl] at hx
      cases hx
      exact (hstop hf).mp (hr hf hidle)
    · intro hr hf _
      exact (hstop hf).mpr (hr l hl hf)
  · have hstep := Lane.step_apply (hi s l hl) (fun anchor heq => hp ⟨anchor, heq⟩) h
    refine ⟨hkept hstep.inv, iff_of_true hstep.left ?_⟩
    cases op with
    | prune anchor => exact absurd ⟨anchor, rfl⟩ hp
    | _ => trivial

theorem released_iff (db : Db) (op : Op) (db' : Db) (hi : db.Inv) (h : db.step op = some db') :
    db'.Inv ∧ (Released db db' ↔ ExitRecorded db op) := by
  cases op with
  | create s kind next =>
    obtain ⟨hnone, h⟩ := guard_some h
    cases h
    rw [Option.isNone_iff_eq_none] at hnone
    constructor
    · intro t x hx
      rw [Table.get_set] at hx
      split at hx
      · cases hx
        exact .create kind next
      · exact hi t x hx
    · refine iff_of_true ?_ trivial
      intro t x x' hx hx' hf hne
      rw [Table.get_set] at hx'
      split at hx'
      · rename_i hts
        rw [hts, hnone] at hx
        cases hx
      · rw [hx] at hx'
        cases hx'
        exact absurd hf hne
  | on s op =>
    obtain ⟨l, hl, h⟩ := bind_some h
    obtain ⟨l', hl', h⟩ := bind_some h
    cases h
    exact released_on hi hl hl'
  | hide sessions =>
    cases h
    constructor
    · intro t x hx
      obtain ⟨y, hy, rfl⟩ := Option.map_eq_some_iff.mp hx
      have := hi t y hy
      beta_reduce
      split
      · exact ⟨this.rows, this.active, this.failing⟩
      · exact this
    · refine iff_of_true ?_ trivial
      intro t x x' hx hx' hf hne
      obtain ⟨y, hy, rfl⟩ := Option.map_eq_some_iff.mp hx'
      rw [hx] at hy
      cases hy
      beta_reduce at hne
      split at hne <;> exact absurd hf hne

/-- Over every run, the sessions that leave `failed` have the exit and the seal of the failed Run and
no later execution, if and only if each prune of a failed session finds that exit. -/
theorem quarantine_kept (ops : List Op) :
    Over (fun db _ db' => Released db db') .empty ops ↔
      Over (fun db op _ => ExitRecorded db op) .empty ops := by
  refine Over.congr ?_ released_iff ops
  intro s l hl
  cases hl

/-- A conversation with a completed turn. The cancellation of its second turn fails: the native
abort is committed and the output sealed, and the Agent Loop has not been seen to stop. -/
def unconfirmed : List Op :=
  [.create 1 .conversation 1, .on 1 (.acceptInput 1 true), .on 1 (.claim 1 5),
    .on 1 (.workFinished 1 5 .completed), .on 1 (.acceptInput 2 true), .on 1 (.claim 2 6),
    .on 1 (.projectNative 2 6 true), .on 1 (.markStarted 2 6), .on 1 (.projectNative 2 6 false),
    .on 1 (.cancellationFailed 2 6 7), .on 1 (.projectSeal 2 6 7 false)]

theorem prune_releases_unconfirmed :
    ¬ ∀ ops, Over (fun db _ db' => Released db db') .empty ops := by
  intro h
  have hstep : ∃ db', (Db.run .empty unconfirmed).step (.on 1 (.prune 1)) = some db' :=
    Option.isSome_iff_exists.mp (by decide)
  obtain ⟨db', hs⟩ := hstep
  have hlast := (h (unconfirmed ++ [.on 1 (.prune 1)])).last hs
  have hview : ((Db.run .empty unconfirmed).get 1).map (·.state) = some .failed ∧
      (((Db.run .empty unconfirmed).step (.on 1 (.prune 1))).bind (·.get 1)).map (fun l =>
        (l.state, (l.failing.bind l.runs.get).map (·.agentExitedAt))) =
          some (.idle, some false) := by decide
  rw [hs, Option.bind_some] at hview
  obtain ⟨l, hl, hf⟩ := Option.map_eq_some_iff.mp hview.1
  obtain ⟨l', hl', hv⟩ := Option.map_eq_some_iff.mp hview.2
  obtain ⟨hstate, hexit⟩ := Prod.mk.inj hv
  obtain ⟨k, f, hk, hrow, hexited, -⟩ := hlast 1 l l' hl hl' hf (by rw [hstate]; nofun)
  rw [hk, Option.bind_some, hrow, Option.map_some, hexited] at hexit
  cases hexit

end Runs

end Quarantine
end Runtime
end PiCloud
