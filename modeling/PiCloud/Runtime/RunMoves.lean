import PiCloud.Runtime.QuarantineRecovery

/-!
# Runtime.RunMoves

What an operation does to the row of a Run, said once.

* `Move`: the ways in which a row changes, with the guards of each; readiness aside.
* `apply_row`: every operation inserts a fresh row, or moves each row it finds.
* `Run.Sealing`: a requested seal fits the state of its Run, and a terminal Run that was started has
  one or is sealed.
* `Run.Sealing.move`, `Lane.Sealing.apply`: every move keeps it, and so does every operation.
-/

namespace PiCloud
namespace Runtime
namespace Quarantine

open Lib

/-- The moves of a row. Only those at `true` change its owner or its seal. -/
inductive Move (r : Run) : Bool → Run → Prop where
  | kept {t : Bool} : Move r t r
  | placed {t : Bool} (position : Nat) : r.state = .queued → r.startedAt = false →
      Move r t { r with mailboxPosition := position }
  | cancelled {t : Bool} : r.state = .queued → r.startedAt = false →
      Move r t { r with state := .cancelled }
  | claimed (lease : Nat) : r.state = .queued →
      Move r true { r with
        state := .running, startedAt := true, recoveryRequestedAt := false, leaseId := some lease }
  | failed {lease factId : Nat} {timedOut : Bool} {p : Run} : r.state.active = true →
      r.currentGrant lease = true →
      requestExecutionStreamSeal { r with state := Lane.terminalState (.failed timedOut) } factId
        (.terminal (.failed timedOut)) = some p →
      Move r true { p with executionReleasedAt := true }
  | recovering {lease factId : Nat} {p : Run} : r.currentGrant lease = true →
      (r.state.active = true ∨ r.outputSeal = none ∧
        ¬ (r.outputSealedAt && isTerminalRunState r.state) = true) →
      requestExecutionStreamSeal r factId .recover = some p →
      Move r true { p with executionReleasedAt := true }
  | released {t : Bool} : Move r t { r with executionReleasedAt := true }
  | cancelling {t : Bool} {lease : Nat} : r.state = .running → r.currentGrant lease = true →
      Move r t { r with state := .cancelRequested }
  | requeued {factId : Nat} : r.outputSeal = some ⟨factId, .recover⟩ → r.outputSealedAt = false →
      isTerminalRunState r.state = false → Move r true (r.requeued .queued)
  | sealed {t : Bool} {factId : Nat} {event : Terminal} (released : Bool) :
      r.outputSeal = some ⟨factId, .terminal event⟩ →
      Move r t { r with outputSealedAt := true, executionReleasedAt := released }
  | finished {t : Bool} (terminal : Terminal) : r.leaseId.isSome = true →
      isTerminalRunState r.state = false →
      Move r t { r with
        state := Lane.terminalState terminal, outputSealedAt := true, executionReleasedAt := true
        agentExitedAt := true, recoveryRequestedAt := false }
  | exited {t : Bool} (released : Bool) :
      Move r t { r with
        agentExitedAt := true, executionReleasedAt := r.executionReleasedAt || released }
  | pruned {t : Bool} : r.prunedAt = true ∨ isTerminalRunState r.state = true →
      Move r t { r with prunedAt := true }

theorem Move.owner {r m : Run} (h : Move r false m) :
    m.leaseId = r.leaseId ∧ m.outputSeal = r.outputSeal := by
  cases h <;> exact ⟨rfl, rfl⟩

/-- The row of an accepted input. -/
structure Run.Fresh (r : Run) : Prop where
  state : r.state = .queued
  started : r.startedAt = false
  owned : r.leaseId = none
  requested : r.outputSeal = none
  sealed : r.outputSealedAt = false
  pruned : r.prunedAt = false

/-- A row before and after an operation. -/
inductive RowMove (t : Bool) : Option Run → Option Run → Prop where
  | absent : RowMove t none none
  | fresh {r : Run} : r.Fresh → RowMove t none (some r)
  | moved {r m : Run} (ready : Bool) : Move r t m →
      RowMove t (some r) (some { m with readyAt := ready })

namespace RowMove

variable {t : Bool}

theorem refl (x : Option Run) : RowMove t x x := by
  cases x with
  | none => exact .absent
  | some r => exact .moved r.readyAt .kept

theorem ready {x : Option Run} {r : Run} (h : RowMove t x (some r)) (ready : Bool) :
    RowMove t x (some { r with readyAt := ready }) := by
  cases h with
  | fresh hf => exact .fresh ⟨hf.state, hf.started, hf.owned, hf.requested, hf.sealed, hf.pruned⟩
  | @moved r m _ hm => exact .moved (m := m) ready hm

variable {l : Lane} {x : Option Run} {k : Nat}

theorem advance (h : RowMove t x (l.runs.get k)) : RowMove t x (l.advanceLaneReadiness.runs.get k) := by
  unfold Lane.advanceLaneReadiness
  rw [Table.get_mapRows]
  cases hk : l.runs.get k with
  | none =>
    rw [hk] at h
    exact h
  | some r =>
    rw [hk] at h
    rw [Option.map_some]
    split
    · exact h.ready true
    · exact h

theorem recover (h : RowMove t x (l.runs.get k)) (run : Nat) :
    RowMove t x ((l.recoverQuarantinedSession run).runs.get k) := by
  obtain heq | ⟨-, -, -, heq⟩ := recover_eq l run
  · rw [heq]
    exact h
  · rw [heq]
    exact advance h

theorem setRun {r m : Run} (hk : l.runs.get k = some r) (hm : Move r t m) (ready : Bool) (j : Nat) :
    RowMove t (l.runs.get j) ((l.setRun k { m with readyAt := ready }).runs.get j) := by
  unfold Lane.setRun
  rw [Table.get_set]
  split
  · rename_i hjk
    subst hjk
    rw [hk]
    exact .moved ready hm
  · exact refl _

end RowMove

namespace Lane

variable {l l' : Lane}

theorem row_acceptInput {run : Nat} {chat : Bool} (h : l.acceptInput run chat = some l') (k : Nat) :
    RowMove false (l.runs.get k) (l'.runs.get k) := by
  unfold Lane.acceptInput at h
  obtain ⟨hg, h⟩ := guard_some h
  cases h
  simp only [Bool.and_eq_true, Option.isNone_iff_eq_none] at hg
  dsimp only
  rw [Table.get_set]
  split
  · rename_i hk
    rw [hk, hg.2]
    exact .fresh ⟨rfl, rfl, rfl, rfl, rfl, rfl⟩
  · exact .refl _

theorem editable_spec {r : Run} (h : r.editable = true) : r.state = .queued ∧ r.startedAt = false := by
  simp only [Run.editable, Bool.and_eq_true, decide_eq_true_eq, Bool.not_eq_true'] at h
  exact ⟨h.1.1.2, h.2⟩

theorem row_moveInput {run other : Nat} (h : l.moveInput run other = some l') (k : Nat) :
    RowMove false (l.runs.get k) (l'.runs.get k) := by
  unfold Lane.moveInput at h
  obtain ⟨r, hr, h⟩ := bind_some h
  obtain ⟨o, ho, h⟩ := bind_some h
  obtain ⟨hg, h⟩ := guard_some h
  obtain ⟨-, h⟩ := guard_some h
  cases h
  simp only [Bool.and_eq_true, decide_eq_true_eq] at hg
  obtain ⟨⟨⟨hr', ho'⟩, -⟩, hne⟩ := hg
  refine .advance ?_
  unfold Lane.setRun
  dsimp only
  rw [Table.get_set, Table.get_set]
  split
  · rename_i hk
    rw [hk, ho]
    exact .moved false (.placed _ (editable_spec ho').1 (editable_spec ho').2)
  · split
    · rename_i hk
      rw [hk, hr]
      exact .moved false (.placed _ (editable_spec hr').1 (editable_spec hr').2)
    · exact .refl _

theorem row_cancelInput {run : Nat} (h : l.cancelInput run = some l') (k : Nat) :
    RowMove false (l.runs.get k) (l'.runs.get k) := by
  unfold Lane.cancelInput at h
  obtain ⟨r, hr, h⟩ := bind_some h
  obtain ⟨hg, h⟩ := guard_some h
  cases h
  exact .advance (.setRun hr (.cancelled (editable_spec hg).1 (editable_spec hg).2) false k)

theorem row_cancelTurn {run : Nat} (h : l.cancelTurn run = some l') (k : Nat) :
    RowMove false (l.runs.get k) (l'.runs.get k) := by
  unfold Lane.cancelTurn at h
  obtain ⟨r, hr, h⟩ := bind_some h
  obtain ⟨hg, h⟩ := guard_some h
  cases h
  simp only [Bool.and_eq_true, decide_eq_true_eq, Bool.not_eq_true'] at hg
  exact .advance (.setRun hr (.cancelled hg.1.1.1.2 hg.1.2) false k)

theorem row_claim {run lease : Nat} (h : l.claim run lease = some l') (k : Nat) :
    RowMove true (l.runs.get k) (l'.runs.get k) := by
  unfold Lane.claim at h
  obtain ⟨r, hr, h⟩ := bind_some h
  obtain ⟨hg, h⟩ := guard_some h
  obtain ⟨-, h⟩ := guard_some h
  cases h
  simp only [Bool.and_eq_true, decide_eq_true_eq] at hg
  exact .setRun hr (.claimed lease hg.1.1.1) false k

theorem row_projectNative {run writer : Nat} {pending : Bool}
    (h : l.projectNative run writer pending = some l') (k : Nat) :
    RowMove false (l.runs.get k) (l'.runs.get k) := by
  unfold Lane.projectNative at h
  obtain ⟨r, hr, h⟩ := bind_some h
  obtain ⟨-, h⟩ := guard_some h
  cases h
  exact .refl _

theorem row_recordFailure {run lease factId : Nat} {timedOut quarantineSession : Bool}
    (h : l.recordFailure run lease factId timedOut quarantineSession = some l') (k : Nat) :
    RowMove true (l.runs.get k) (l'.runs.get k) := by
  unfold Lane.recordFailure at h
  obtain ⟨r, hr, h⟩ := bind_some h
  obtain ⟨hg, h⟩ := guard_some h
  obtain ⟨state, hstate, h⟩ := bind_some h
  obtain ⟨p, hp, h⟩ := bind_some h
  obtain ⟨-, h⟩ := guard_some h
  obtain ⟨next, -, h⟩ := bind_some h
  cases h
  simp only [Bool.and_eq_true, decide_eq_true_eq] at hg
  have hstate : state = terminalState (.failed timedOut) := by
    rw [transitionLockedRun_eq hstate]
    cases timedOut <;> rfl
  rw [hstate] at hp
  have hm : Move r true { p with executionReleasedAt := true } :=
    .failed (by rw [hg.1]; rfl) hg.2 hp
  exact .setRun hr hm p.readyAt k

theorem row_requestRecovery {run lease factId : Nat}
    (h : l.requestRecovery run lease factId = some l') (k : Nat) :
    RowMove true (l.runs.get k) (l'.runs.get k) := by
  unfold Lane.requestRecovery at h
  obtain ⟨r, hr, h⟩ := bind_some h
  split at h
  · cases h
    exact .refl _
  · rename_i howner
    obtain ⟨hg, h⟩ := guard_some h
    obtain ⟨p, hp, h⟩ := bind_some h
    cases h
    simp only [Bool.or_eq_true, not_or] at howner
    have hnone : r.outputSeal = none := Option.not_isSome_iff_eq_none.mp howner.2
    exact .setRun hr (.recovering hg (.inr ⟨hnone, howner.1.2⟩) hp) p.readyAt k

theorem row_reconcile {run lease factId : Nat} (h : l.reconcile run lease factId = some l')
    (k : Nat) : RowMove true (l.runs.get k) (l'.runs.get k) := by
  unfold Lane.reconcile at h
  obtain ⟨r, hr, h⟩ := bind_some h
  obtain ⟨hg, h⟩ := guard_some h
  split at h
  · rename_i ha
    obtain ⟨-, h⟩ := guard_some h
    obtain ⟨p, hp, h⟩ := bind_some h
    cases h
    exact .setRun hr (.recovering hg (.inl ha) hp) p.readyAt k
  · obtain ⟨-, h⟩ := guard_some h
    cases h
    exact .setRun hr .released r.readyAt k

theorem row_markStarted {run lease : Nat} (h : l.markStarted run lease = some l') (k : Nat) :
    RowMove false (l.runs.get k) (l'.runs.get k) := by
  unfold Lane.markStarted at h
  obtain ⟨r, hr, h⟩ := bind_some h
  obtain ⟨hg, h⟩ := guard_some h
  obtain ⟨state, hstate, h⟩ := bind_some h
  obtain ⟨next, -, h⟩ := bind_some h
  cases h
  simp only [Bool.and_eq_true, decide_eq_true_eq] at hg
  obtain rfl := transitionLockedRun_eq hstate
  exact .setRun hr (.cancelling hg.1.1 hg.2) r.readyAt k

theorem row_cancellationFailed {run lease factId : Nat}
    (h : l.cancellationFailed run lease factId = some l') (k : Nat) :
    RowMove true (l.runs.get k) (l'.runs.get k) := by
  unfold Lane.cancellationFailed at h
  obtain ⟨r, hr, h⟩ := bind_some h
  obtain ⟨hg, h⟩ := guard_some h
  obtain ⟨state, hstate, h⟩ := bind_some h
  obtain ⟨next, -, h⟩ := bind_some h
  obtain ⟨p, hp, h⟩ := bind_some h
  obtain ⟨hgrant, h⟩ := guard_some h
  cases h
  simp only [Bool.and_eq_true, decide_eq_true_eq] at hg
  obtain rfl := transitionLockedRun_eq hstate
  have hp : requestExecutionStreamSeal { r with state := terminalState (.failed false) } factId
      (.terminal (.failed false)) = some p := hp
  exact .setRun hr (.failed (by rw [hg.1]; rfl) hgrant hp) p.readyAt k

theorem projectSeal_cases {run writer factId : Nat} {writerSealed : Bool}
    (h : l.projectSeal run writer factId writerSealed = some l') :
    ∃ r, l.runs.get run = some r ∧
      ((l' = l ∧ (r.leaseId ≠ some writer ∧ writerSealed = true ∨ r.outputSealedAt = true)) ∨
        (r.outputSeal = some ⟨factId, .recover⟩ ∧ r.outputSealedAt = false ∧ isTerminalRunState r.state = false ∧
          l' = advanceLaneReadiness { l.setRun run (r.requeued .queued) with state := .idle }) ∨
        ∃ event released, r.outputSeal = some ⟨factId, .terminal event⟩ ∧
          (l' = (l.setRun run { r with
              outputSealedAt := true, executionReleasedAt := released }).advanceLaneReadiness ∨
            l' = ((l.setRun run { r with
              outputSealedAt := true
              executionReleasedAt := released }).recoverQuarantinedSession run).advanceLaneReadiness)) := by
  unfold Lane.projectSeal at h
  obtain ⟨r, hr, h⟩ := bind_some h
  refine ⟨r, hr, ?_⟩
  split at h
  · rename_i hpassed
    cases h
    simp only [Bool.and_eq_true, decide_eq_true_eq] at hpassed
    exact .inl ⟨rfl, .inl hpassed⟩
  obtain ⟨fact, hfact, h⟩ := bind_some h
  obtain ⟨hid, h⟩ := guard_some h
  split at h
  · rename_i hsealed
    cases h
    exact .inl ⟨rfl, .inr hsealed⟩
  rename_i hopen
  refine .inr ?_
  obtain ⟨id, body⟩ := fact
  rw [show id = factId from hid] at hfact
  cases body with
  | recover =>
    obtain ⟨state, hstate, h⟩ := bind_some h
    cases h
    have hsame : (if r.leaseId = some writer then { r with executionReleasedAt := true } else r).state
        = r.state := by split <;> rfl
    rw [hsame] at hstate
    obtain rfl := transitionLockedRun_eq hstate
    refine .inl ⟨hfact, Bool.not_eq_true _ ▸ hopen, open_of_queued hstate, ?_⟩
    have hrow : (if r.leaseId = some writer then { r with executionReleasedAt := true } else r).requeued
        .queued = r.requeued .queued := by split <;> rfl
    rw [hrow]
  | terminal event =>
    refine .inr ⟨event,
      if r.leaseId = some writer then true else r.executionReleasedAt, hfact, ?_⟩
    have heq : (if r.leaseId = some writer then { r with executionReleasedAt := true } else r) =
        { r with
          executionReleasedAt := if r.leaseId = some writer then true else r.executionReleasedAt } := by
      split <;> rfl
    dsimp only at h
    rw [heq] at h
    cases event with
    | failed timedOut =>
      cases h
      exact .inr rfl
    | completed =>
      cases h
      exact .inl rfl
    | cancelled =>
      cases h
      exact .inl rfl

theorem row_sealed {t released : Bool} {run factId : Nat} {event : Terminal} {r : Run}
    (hr : l.runs.get run = some r) (hfact : r.outputSeal = some ⟨factId, .terminal event⟩)
    (h : l' = (l.setRun run { r with
        outputSealedAt := true, executionReleasedAt := released }).advanceLaneReadiness ∨
      l' = ((l.setRun run { r with
        outputSealedAt := true
        executionReleasedAt := released }).recoverQuarantinedSession run).advanceLaneReadiness)
    (k : Nat) : RowMove t (l.runs.get k) (l'.runs.get k) := by
  have hrow := RowMove.setRun (t := t) hr (.sealed released hfact) r.readyAt k
  obtain rfl | rfl := h
  · exact .advance hrow
  · exact .advance (.recover hrow run)

theorem row_projectSeal {run writer factId : Nat} {writerSealed : Bool}
    (h : l.projectSeal run writer factId writerSealed = some l') (k : Nat) :
    RowMove true (l.runs.get k) (l'.runs.get k) := by
  obtain ⟨r, hr, ⟨rfl, -⟩ | ⟨hfact, hopen, hstate, rfl⟩ | ⟨event, released, hfact, h⟩⟩ :=
    projectSeal_cases h
  · exact .refl _
  · exact .advance (.setRun hr (.requeued hfact hopen hstate) false k)
  · exact row_sealed hr hfact h k

theorem row_workFinished {run writer : Nat} {terminal : Terminal}
    (h : l.workFinished run writer terminal = some l') (k : Nat) :
    RowMove false (l.runs.get k) (l'.runs.get k) := by
  unfold Lane.workFinished at h
  obtain ⟨r, hr, h⟩ := bind_some h
  split at h
  · cases h
    exact .refl _
  rename_i howner
  simp only [Bool.or_eq_true, decide_eq_true_eq, not_or, not_not] at howner
  unfold Lane.finishWorkIn at h
  split at h
  · cases h
    have hm : Move r false { r with agentExitedAt := true, executionReleasedAt := r.executionReleasedAt || true } :=
      .exited true
    rw [Bool.or_true] at hm
    exact .setRun hr hm r.readyAt k
  · rename_i hopen
    obtain ⟨current, -, h⟩ := bind_some h
    obtain ⟨state, hstate, h⟩ := bind_some h
    cases h
    obtain rfl := transitionLockedRun_eq hstate
    have hm := Move.finished (t := false) terminal (by rw [howner.1]; rfl)
      (Bool.not_eq_true _ ▸ hopen)
    exact .advance (.setRun hr hm r.readyAt k)

theorem row_confirmAgentExit {run lease : Nat} (h : l.confirmAgentExit run lease = some l')
    (k : Nat) : RowMove false (l.runs.get k) (l'.runs.get k) := by
  unfold Lane.confirmAgentExit at h
  obtain ⟨r, hr, h⟩ := bind_some h
  split at h
  · cases h
    exact .refl _
  · cases h
    have hm : Move r false { r with agentExitedAt := true, executionReleasedAt := r.executionReleasedAt || false } :=
      .exited false
    rw [Bool.or_false] at hm
    exact .recover (.setRun hr hm r.readyAt k) run

theorem row_prune {anchor : Nat} (h : l.prune anchor = some l') (k : Nat) :
    RowMove false (l.runs.get k) (l'.runs.get k) := by
  unfold Lane.prune at h
  obtain ⟨-, h⟩ := guard_some h
  obtain ⟨-, h⟩ := guard_some h
  obtain ⟨hsettled, h⟩ := guard_some h
  obtain ⟨-, h⟩ := guard_some h
  obtain ⟨-, h⟩ := guard_some h
  cases h
  dsimp only
  rw [Table.get_mapRows]
  cases hk : l.runs.get k with
  | none => exact .absent
  | some r =>
    rw [Option.map_some]
    split
    · have hr := List.all_eq_true.mp hsettled r (Table.mem_rows.mpr ⟨k, hk⟩)
      refine .moved r.readyAt (.pruned ?_)
      rw [Bool.or_eq_true, Bool.not_eq_true', Bool.or_eq_false_iff] at hr
      obtain hr | ⟨hq, ha⟩ := hr
      · exact .inl hr
      · right
        by_contra hopen
        rw [Bool.not_eq_true] at hopen
        rw [active_of_open (of_decide_eq_false hq) hopen] at ha
        cases ha
    · exact .refl _

end Lane

/-- The operations that may change the owner or the seal of a Run. -/
def LaneOp.owns : LaneOp → Bool
  | .claim .. | .recordFailure .. | .requestRecovery .. | .reconcile .. | .cancellationFailed ..
  | .projectSeal .. => true
  | _ => false

namespace Lane

variable {l l' : Lane}

theorem apply_row {op : LaneOp} (h : l.apply op = some l') (k : Nat) :
    RowMove op.owns (l.runs.get k) (l'.runs.get k) := by
  cases op with
  | acceptInput run chat => exact row_acceptInput h k
  | moveInput run other => exact row_moveInput h k
  | cancelInput run => exact row_cancelInput h k
  | cancelTurn run => exact row_cancelTurn h k
  | claim run lease => exact row_claim h k
  | projectNative run writer pending => exact row_projectNative h k
  | recordFailure run lease factId timedOut q => exact row_recordFailure h k
  | requestRecovery run lease factId => exact row_requestRecovery h k
  | reconcile run lease factId => exact row_reconcile h k
  | markStarted run lease => exact row_markStarted h k
  | cancellationFailed run lease factId => exact row_cancellationFailed h k
  | projectSeal run writer factId writerSealed => exact row_projectSeal h k
  | workFinished run writer terminal => exact row_workFinished h k
  | confirmAgentExit run lease => exact row_confirmAgentExit h k
  | recover run =>
    cases h
    exact .recover (.refl _) run
  | prune anchor => exact row_prune h k

end Lane

/-! ## Seals fit their Runs -/

/-- A seal that asks for recovery finds its Run active and its execution released, or sealed by
completed work; one that carries the end of the turn finds the Run in the state of that end. -/
structure Run.Sealing (r : Run) : Prop where
  recover : ∀ factId, r.outputSeal = some ⟨factId, .recover⟩ →
    r.outputSealedAt = true ∨ r.state.active = true ∧ r.executionReleasedAt = true
  terminal : ∀ factId event, r.outputSeal = some ⟨factId, .terminal event⟩ →
    r.state = Lane.terminalState event
  sealed : r.outputSealedAt = true → isTerminalRunState r.state = true
  closing : isTerminalRunState r.state = true → r.startedAt = true →
    r.outputSeal.isSome = true ∨ r.outputSealedAt = true
  pruned : r.prunedAt = true → isTerminalRunState r.state = true

theorem terminalState_terminal (event : Terminal) :
    isTerminalRunState (Lane.terminalState event) = true := by
  cases event with
  | completed => rfl
  | cancelled => rfl
  | failed timedOut => cases timedOut <;> rfl

theorem Run.currentGrant_released {r : Run} {lease : Nat} (h : r.currentGrant lease = true) :
    r.leaseId = some lease ∧ r.executionReleasedAt = false := by
  simp only [Run.currentGrant, Bool.and_eq_true, decide_eq_true_eq, Bool.not_eq_true'] at h
  exact h

namespace Run.Sealing

variable {r : Run}

theorem fresh (h : r.Fresh) : r.Sealing where
  recover factId hf := by
    rw [h.requested] at hf
    cases hf
  terminal factId event hf := by
    rw [h.requested] at hf
    cases hf
  sealed hs := by
    rw [h.sealed] at hs
    cases hs
  closing ht := by
    rw [h.state] at ht
    cases ht
  pruned hp := by
    rw [h.pruned] at hp
    cases hp

theorem unrequested (h : r.Sealing) (ha : r.state.active = true) {lease : Nat}
    (hg : r.currentGrant lease = true) : r.outputSeal = none := by
  obtain ⟨-, hreleased⟩ := Run.currentGrant_released hg
  have hopen : ∀ {p : Prop}, isTerminalRunState r.state = true → p := by
    intro p ht
    rw [not_active_of_terminal ht] at ha
    cases ha
  cases hf : r.outputSeal with
  | none => rfl
  | some fact =>
    obtain ⟨factId, body⟩ := fact
    cases body with
    | recover =>
      obtain hs | ⟨-, hr⟩ := h.recover factId hf
      · exact hopen (h.sealed hs)
      · rw [hreleased] at hr
        cases hr
    | terminal event =>
      have hstate := h.terminal factId event hf
      exact hopen (hstate ▸ terminalState_terminal event)

theorem unsealed (h : r.Sealing) (ha : r.state.active = true) : r.outputSealedAt = false := by
  refine Bool.eq_false_iff.mpr fun hs => ?_
  rw [not_active_of_terminal (h.sealed hs)] at ha
  cases ha

theorem unpruned (h : r.Sealing) (hopen : isTerminalRunState r.state = false) :
    r.prunedAt = false := by
  refine Bool.eq_false_iff.mpr fun hp => ?_
  rw [h.pruned hp] at hopen
  cases hopen

theorem request {factId : Nat} {body : SealBody} {p : Run}
    (h : requestExecutionStreamSeal r factId body = some p) (hnone : r.outputSeal = none) :
    p = { r with outputSeal := some ⟨factId, body⟩
                 recoveryRequestedAt := r.recoveryRequestedAt || body = .recover } := by
  unfold requestExecutionStreamSeal at h
  split at h
  · cases h
  · split at h
    · rename_i hf
      rw [hnone] at hf
      cases hf
    · cases h
      rfl

theorem active_of_grant (h : r.Sealing) (hs : r.Sound) {lease : Nat}
    (hg : r.currentGrant lease = true) (hnone : r.outputSeal = none)
    (hopen : ¬ (r.outputSealedAt && isTerminalRunState r.state) = true) : r.state.active = true := by
  obtain ⟨hstart, hqueued⟩ := hs.grant hg
  refine Lane.active_of_open hqueued (Bool.eq_false_iff.mpr fun hterm => hopen ?_)
  obtain hf | hsealed := h.closing hterm hstart
  · rw [hnone] at hf
    cases hf
  · rw [hsealed, hterm]
    rfl

theorem ready (h : r.Sealing) (ready : Bool) : { r with readyAt := ready }.Sealing :=
  ⟨h.recover, h.terminal, h.sealed, h.closing, h.pruned⟩

theorem move {m : Run} {t : Bool} (h : r.Sealing) (hs : r.Sound) (hm : Move r t m) : m.Sealing := by
  cases hm with
  | kept => exact h
  | placed position hq _ => exact ⟨h.recover, h.terminal, h.sealed, h.closing, h.pruned⟩
  | cancelled hq hstart =>
    have hnone := (hs.queued hq).2
    refine ⟨?_, ?_, fun _ => rfl, ?_, fun _ => rfl⟩
    · intro factId hf
      rw [show r.outputSeal = _ from hf] at hnone
      cases hnone
    · intro factId event hf
      rw [show r.outputSeal = _ from hf] at hnone
      cases hnone
    · intro _ hstart'
      rw [show r.startedAt = _ from hstart'] at hstart
      cases hstart
  | claimed lease hq =>
    have hnone := (hs.queued hq).2
    have hopen : isTerminalRunState r.state = false := by
      rw [hq]
      rfl
    refine ⟨?_, ?_, ?_, nofun, ?_⟩
    · intro factId hf
      rw [show r.outputSeal = _ from hf] at hnone
      cases hnone
    · intro factId event hf
      rw [show r.outputSeal = _ from hf] at hnone
      cases hnone
    · intro hsealed
      rw [h.sealed hsealed] at hopen
      cases hopen
    · exact fun hp => absurd hp (by rw [h.unpruned hopen]; nofun)
  | @failed lease factId timedOut p ha hg hp =>
    have hnone := h.unrequested ha hg
    obtain rfl := request hp hnone
    refine ⟨?_, ?_, fun _ => terminalState_terminal _, fun _ _ => .inl rfl,
      fun _ => terminalState_terminal _⟩
    · intro factId hf
      cases hf
    · intro factId event hf
      cases hf
      rfl
  | @recovering lease factId p hg hwhen hp =>
    have ha : r.state.active = true := hwhen.elim id fun hn => h.active_of_grant hs hg hn.1 hn.2
    obtain rfl := request hp (h.unrequested ha hg)
    refine ⟨fun factId hf => .inr ⟨ha, rfl⟩, ?_, h.sealed, fun _ _ => .inl rfl, h.pruned⟩
    intro factId event hf
    cases hf
  | released =>
    refine ⟨?_, h.terminal, h.sealed, h.closing, h.pruned⟩
    intro factId hf
    exact (h.recover factId hf).imp id fun hr => ⟨hr.1, rfl⟩
  | @cancelling _ lease hr hg =>
    have ha : r.state.active = true := by
      rw [hr]
      rfl
    have hopen : isTerminalRunState r.state = false := by
      rw [hr]
      rfl
    have hnone := h.unrequested ha hg
    refine ⟨?_, ?_, ?_, nofun, ?_⟩
    · intro factId hf
      rw [show r.outputSeal = _ from hf] at hnone
      cases hnone
    · intro factId event hf
      rw [show r.outputSeal = _ from hf] at hnone
      cases hnone
    · exact fun hsealed => absurd hsealed (by rw [h.unsealed ha]; nofun)
    · exact fun hp => absurd hp (by rw [h.unpruned hopen]; nofun)
  | requeued hf hopen hstate =>
    refine ⟨nofun, nofun, nofun, nofun, fun hp => ?_⟩
    rw [show (r.requeued .queued).prunedAt = r.prunedAt from rfl, h.unpruned hstate] at hp
    cases hp
  | @sealed _ factId event released hf =>
    have hstate := h.terminal factId event hf
    have hterm : isTerminalRunState r.state = true := by
      rw [hstate]
      exact terminalState_terminal event
    exact ⟨fun _ _ => .inl rfl, h.terminal, fun _ => hterm, fun _ _ => .inr rfl, h.pruned⟩
  | finished terminal hlease hopen =>
    refine ⟨fun _ _ => .inl rfl, ?_, fun _ => terminalState_terminal terminal, fun _ _ => .inr rfl,
      fun _ => terminalState_terminal terminal⟩
    intro factId event hf
    have hstate := h.terminal factId event hf
    rw [hstate, terminalState_terminal] at hopen
    cases hopen
  | exited released =>
    refine ⟨?_, h.terminal, h.sealed, h.closing, h.pruned⟩
    intro factId hf
    refine (h.recover factId hf).imp id fun hr => ⟨hr.1, ?_⟩
    rw [hr.2, Bool.true_or]
  | pruned hp =>
    refine ⟨h.recover, h.terminal, h.sealed, h.closing, fun _ => ?_⟩
    exact hp.elim h.pruned id

end Run.Sealing

namespace Lane

def Sealing (l : Lane) : Prop := ∀ k r, l.runs.get k = some r → r.Sealing

variable {l l' : Lane}

theorem Sealing.apply (h : l.Sealing) (hi : l.Inv) {op : LaneOp} (hop : l.apply op = some l') :
    l'.Sealing := by
  intro k r' hr'
  have hrow := apply_row hop k
  rw [hr'] at hrow
  generalize hx : l.runs.get k = x at hrow
  cases hrow with
  | fresh hf => exact .fresh hf
  | moved ready hm => exact ((h k _ hx).move (hi.rows.sound hx) hm).ready ready

theorem Inv.apply (hi : l.Inv) {op : LaneOp} (hop : l.apply op = some l') : l'.Inv := by
  by_cases hp : ∃ anchor, op = .prune anchor
  · obtain ⟨anchor, rfl⟩ := hp
    exact (step_prune hi hop).1
  · exact (step_apply hi (fun anchor heq => hp ⟨anchor, heq⟩) hop).inv

end Lane

end Quarantine
end Runtime
end PiCloud
