import PiCloud.Runtime.RunMoves

/-!
# Runtime.LaneReadiness

Readiness is a stored mark. No operation forgets to set it where the dependencies of a queued Run
hold, and none leaves it on a Run that has to wait.

* `dependencies_iff`: the query of `laneDependenciesReady`, in words.
* `Lane.Prompt`: each queued Run whose dependencies hold is marked.
* `Lane.Clear`: what lies before a marked Run is terminal, and sealed if it was ever started.
* `readiness_kept`: both, over every run of the operations.
-/

namespace PiCloud
namespace Runtime
namespace Quarantine

open Lib

namespace Run

def settled (r : Run) : Bool := isTerminalRunState r.state && !r.recoveryRequestedAt

end Run

namespace Lane

def Prompt (l : Lane) : Prop :=
  ∀ k r, l.runs.get k = some r → r.state = .queued →
    l.laneDependenciesReady r.mailboxPosition = true → r.readyAt = true

def Clear (l : Lane) : Prop :=
  ∀ k r j q, l.runs.get k = some r → r.readyAt = true → l.runs.get j = some q →
    q.mailboxPosition < r.mailboxPosition → q.startedAt = true → q.outputSealedAt = true

variable {l l' : Lane}

theorem dependencies_iff (l : Lane) (mailbox : Nat) :
    l.laneDependenciesReady mailbox = true ↔
      (l.state = .cold ∨ l.state = .idle) ∧ l.prunedAt = false ∧
        ∀ k q, l.runs.get k = some q →
          (q.mailboxPosition < mailbox → q.settled = true) ∧ q.pendingSeal = false := by
  unfold laneDependenciesReady
  simp only [Bool.and_eq_true, Bool.or_eq_true, decide_eq_true_eq, Bool.not_eq_true',
    List.all_eq_true]
  constructor
  · rintro ⟨⟨⟨hstate, hpruned⟩, hprior⟩, hseals⟩
    refine ⟨hstate, hpruned, fun k q hk => ?_⟩
    have hmem := Table.mem_rows.mpr ⟨k, hk⟩
    refine ⟨fun hlt => ?_, hseals q hmem⟩
    obtain hnot | hq := hprior q hmem
    · exact absurd hlt (of_decide_eq_false hnot)
    · unfold Run.settled
      rw [hq.1, hq.2]
      rfl
  · rintro ⟨hstate, hpruned, hall⟩
    refine ⟨⟨⟨hstate, hpruned⟩, fun q hmem => ?_⟩, fun q hmem => ?_⟩
    · obtain ⟨k, hk⟩ := Table.mem_rows.mp hmem
      by_cases hlt : q.mailboxPosition < mailbox
      · have hq := (hall k q hk).1 hlt
        unfold Run.settled at hq
        rw [Bool.and_eq_true, Bool.not_eq_true'] at hq
        exact .inr hq
      · exact .inl (decide_eq_false hlt)
    · obtain ⟨k, hk⟩ := Table.mem_rows.mp hmem
      exact (hall k q hk).2

/-! ## Marks are set -/

theorem dependencies_advance (mailbox : Nat) :
    l.advanceLaneReadiness.laneDependenciesReady mailbox = l.laneDependenciesReady mailbox := by
  rw [Bool.eq_iff_iff, dependencies_iff, dependencies_iff]
  unfold advanceLaneReadiness
  dsimp only
  refine and_congr Iff.rfl (and_congr Iff.rfl ?_)
  constructor
  · intro h k q hk
    have hq := h k _ (by rw [Table.get_mapRows, hk, Option.map_some])
    split at hq <;> exact hq
  · intro h k q hk
    obtain ⟨p, hp, rfl⟩ := Option.map_eq_some_iff.mp hk
    have hq := h k p hp
    beta_reduce
    split <;> exact hq

theorem prompt_advance : l.advanceLaneReadiness.Prompt := by
  intro k r hk hq hdep
  rw [dependencies_advance] at hdep
  obtain ⟨p, hp, rfl⟩ := Option.map_eq_some_iff.mp hk
  beta_reduce at hq hdep ⊢
  by_cases hc : (p.state = .queued && !p.readyAt && l.laneDependenciesReady p.mailboxPosition) = true
  · rw [if_pos hc]
  · rw [if_neg hc] at hq hdep ⊢
    by_contra hready
    refine hc ?_
    rw [hdep, decide_eq_true hq, Bool.eq_false_iff.mpr hready]
    rfl

theorem prompt_of_state (h : ¬ (l.state = .cold ∨ l.state = .idle)) : l.Prompt := by
  intro k r _ _ hdep
  exact absurd ((dependencies_iff l _).mp hdep).1 h

theorem prompt_of_seal {k : Nat} {r : Run} (hk : l.runs.get k = some r)
    (h : r.pendingSeal = true) : l.Prompt := by
  intro j q _ _ hdep
  have := (((dependencies_iff l _).mp hdep).2.2 k r hk).2
  rw [h] at this
  cases this

theorem Prompt.recover (h : l.Prompt) (run : Nat) : (l.recoverQuarantinedSession run).Prompt := by
  obtain heq | ⟨-, -, -, heq⟩ := recover_eq l run
  · rw [heq]
    exact h
  · rw [heq]
    exact prompt_advance

theorem Prompt.setRun (h : l.Prompt) {k : Nat} {r p : Run} (hk : l.runs.get k = some r)
    (hpos : p.mailboxPosition = r.mailboxPosition) (hstate : p.state = r.state)
    (hready : p.readyAt = r.readyAt) (hrec : r.recoveryRequestedAt = true → p.recoveryRequestedAt = true)
    (hseal : r.pendingSeal = true → p.pendingSeal = true) : (l.setRun k p).Prompt := by
  have hdeps : ∀ mailbox, (l.setRun k p).laneDependenciesReady mailbox = true →
      l.laneDependenciesReady mailbox = true := by
    intro mailbox hdep
    rw [dependencies_iff] at hdep ⊢
    obtain ⟨hs, hp, hall⟩ := hdep
    refine ⟨hs, hp, fun j q hj => ?_⟩
    by_cases hjk : j = k
    · subst hjk
      rw [hk] at hj
      cases hj
      obtain ⟨hset, hpend⟩ := hall j p (Table.get_set_self ..)
      constructor
      · intro hlt
        have hs := hset (by rw [hpos]; exact hlt)
        unfold Run.settled at hs ⊢
        rw [Bool.and_eq_true, Bool.not_eq_true'] at hs ⊢
        exact ⟨hstate ▸ hs.1, Bool.eq_false_iff.mpr fun hr => by rw [hrec hr] at hs; cases hs.2⟩
      · refine Bool.eq_false_iff.mpr fun hr => ?_
        rw [hseal hr] at hpend
        cases hpend
    · refine hall j q ?_
      unfold Lane.setRun
      rw [Table.get_set, if_neg hjk]
      exact hj
  intro j q hj hq hdep
  unfold Lane.setRun at hj
  rw [Table.get_set] at hj
  split at hj
  · cases hj
    rw [hready]
    rw [hpos] at hdep
    exact h k r hk (hstate ▸ hq) (hdeps _ hdep)
  · exact h j q hj hq (hdeps _ hdep)

theorem prompt_acceptInput (h : l.Prompt) {run : Nat} {chat : Bool}
    (hop : l.acceptInput run chat = some l') : l'.Prompt := by
  unfold Lane.acceptInput at hop
  obtain ⟨hg, hop⟩ := guard_some hop
  cases hop
  simp only [Bool.and_eq_true, Option.isNone_iff_eq_none] at hg
  have hdeps : ∀ mailbox p, laneDependenciesReady
      { l with nextMailboxPosition := l.nextMailboxPosition + 1, runs := l.runs.set run p } mailbox =
        true → l.laneDependenciesReady mailbox = true := by
    intro mailbox p hdep
    rw [dependencies_iff] at hdep ⊢
    obtain ⟨hs, hp, hall⟩ := hdep
    refine ⟨hs, hp, fun j q hj => hall j q ?_⟩
    dsimp only
    rw [Table.get_set, if_neg, hj]
    rintro rfl
    rw [hg.2] at hj
    cases hj
  intro k r hk hq hdep
  have hdep := hdeps _ _ hdep
  dsimp only at hk
  rw [Table.get_set] at hk
  split at hk
  · cases hk
    exact hdep
  · exact h k r hk hq hdep

theorem prompt_recordFailure (hs : l.Sealing) {run lease factId : Nat} {timedOut q : Bool}
    (hop : l.recordFailure run lease factId timedOut q = some l') : l'.Prompt := by
  unfold Lane.recordFailure at hop
  obtain ⟨r, hr, hop⟩ := bind_some hop
  obtain ⟨hg, hop⟩ := guard_some hop
  obtain ⟨state, -, hop⟩ := bind_some hop
  obtain ⟨p, hp, hop⟩ := bind_some hop
  obtain ⟨-, hop⟩ := guard_some hop
  obtain ⟨next, -, hop⟩ := bind_some hop
  cases hop
  simp only [Bool.and_eq_true, decide_eq_true_eq] at hg
  have ha : r.state.active = true := by
    rw [hg.1]
    rfl
  have hp := Run.Sealing.request hp ((hs run r hr).unrequested ha hg.2)
  refine prompt_of_seal (k := run) (Table.get_set_self ..) ?_
  rw [hp]
  unfold Run.pendingSeal
  dsimp only
  rw [(hs run r hr).unsealed ha]
  rfl

theorem prompt_requested (h : l.Prompt) {k factId : Nat} {r p : Run} (hk : l.runs.get k = some r)
    (hnone : r.outputSeal = none) (hp : requestExecutionStreamSeal r factId .recover = some p) :
    (l.setRun k { p with executionReleasedAt := true }).Prompt := by
  rw [Run.Sealing.request hp hnone]
  refine h.setRun hk rfl rfl rfl (fun hr => ?_) (fun hpending => ?_)
  · dsimp only
    rw [hr]
    rfl
  · unfold Run.pendingSeal at hpending
    rw [hnone] at hpending
    cases hpending

theorem prompt_prune (hs : l.Sealing) {anchor : Nat} (hop : l.prune anchor = some l') :
    l'.Prompt := by
  unfold Lane.prune at hop
  obtain ⟨-, hop⟩ := guard_some hop
  obtain ⟨-, hop⟩ := guard_some hop
  obtain ⟨hsettled, hop⟩ := guard_some hop
  obtain ⟨-, hop⟩ := guard_some hop
  obtain ⟨-, hop⟩ := guard_some hop
  cases hop
  intro k r' hk hq _
  obtain ⟨r, hr, rfl⟩ := Option.map_eq_some_iff.mp hk
  have hstate : r.state = .queued := by
    beta_reduce at hq
    split at hq <;> exact hq
  have hrow := List.all_eq_true.mp hsettled r (Table.mem_rows.mpr ⟨k, hr⟩)
  rw [hstate, (hs k r hr).unpruned (by rw [hstate]; rfl)] at hrow
  cases hrow

theorem Prompt.apply (h : l.Prompt) (hs : l.Sealing) {op : LaneOp} (hop : l.apply op = some l') :
    l'.Prompt := by
  cases op with
  | acceptInput run chat => exact prompt_acceptInput h hop
  | moveInput run other =>
    obtain ⟨r, -, hop⟩ := bind_some (show l.moveInput run other = some l' from hop)
    obtain ⟨o, -, hop⟩ := bind_some hop
    obtain ⟨-, hop⟩ := guard_some hop
    obtain ⟨-, hop⟩ := guard_some hop
    cases hop
    exact prompt_advance
  | cancelInput run =>
    obtain ⟨r, -, hop⟩ := bind_some (show l.cancelInput run = some l' from hop)
    obtain ⟨-, hop⟩ := guard_some hop
    cases hop
    exact prompt_advance
  | cancelTurn run =>
    obtain ⟨r, -, hop⟩ := bind_some (show l.cancelTurn run = some l' from hop)
    obtain ⟨-, hop⟩ := guard_some hop
    cases hop
    exact prompt_advance
  | claim run lease =>
    obtain ⟨r, -, hop⟩ := bind_some (show l.claim run lease = some l' from hop)
    obtain ⟨-, hop⟩ := guard_some hop
    obtain ⟨-, hop⟩ := guard_some hop
    cases hop
    exact prompt_of_state (by nofun)
  | projectNative run writer pending =>
    obtain ⟨r, -, hop⟩ := bind_some (show l.projectNative run writer pending = some l' from hop)
    obtain ⟨-, hop⟩ := guard_some hop
    cases hop
    exact h
  | recordFailure run lease factId timedOut q => exact prompt_recordFailure hs hop
  | requestRecovery run lease factId =>
    obtain ⟨r, hr, hop⟩ := bind_some (show l.requestRecovery run lease factId = some l' from hop)
    split at hop
    · cases hop
      exact h
    · rename_i howner
      obtain ⟨-, hop⟩ := guard_some hop
      obtain ⟨p, hp, hop⟩ := bind_some hop
      cases hop
      simp only [Bool.or_eq_true, not_or] at howner
      exact prompt_requested h hr (Option.not_isSome_iff_eq_none.mp howner.2) hp
  | reconcile run lease factId =>
    obtain ⟨r, hr, hop⟩ := bind_some (show l.reconcile run lease factId = some l' from hop)
    obtain ⟨hg, hop⟩ := guard_some hop
    split at hop
    · rename_i ha
      obtain ⟨-, hop⟩ := guard_some hop
      obtain ⟨p, hp, hop⟩ := bind_some hop
      cases hop
      exact prompt_requested h hr ((hs run r hr).unrequested ha hg) hp
    · obtain ⟨-, hop⟩ := guard_some hop
      cases hop
      exact h.setRun hr rfl rfl rfl id id
  | markStarted run lease =>
    obtain ⟨r, -, hop⟩ := bind_some (show l.markStarted run lease = some l' from hop)
    obtain ⟨-, hop⟩ := guard_some hop
    obtain ⟨state, -, hop⟩ := bind_some hop
    obtain ⟨next, hnext, hop⟩ := bind_some hop
    cases hop
    rw [transitionSession_eq hnext]
    exact prompt_of_state (by nofun)
  | cancellationFailed run lease factId =>
    obtain ⟨r, -, hop⟩ := bind_some (show l.cancellationFailed run lease factId = some l' from hop)
    obtain ⟨-, hop⟩ := guard_some hop
    obtain ⟨state, -, hop⟩ := bind_some hop
    obtain ⟨next, hnext, hop⟩ := bind_some hop
    obtain ⟨p, -, hop⟩ := bind_some hop
    obtain ⟨-, hop⟩ := guard_some hop
    cases hop
    rw [transitionSession_eq hnext]
    exact prompt_of_state (by nofun)
  | projectSeal run writer factId writerSealed =>
    obtain ⟨r, -, hop⟩ :=
      bind_some (show l.projectSeal run writer factId writerSealed = some l' from hop)
    split at hop
    · cases hop
      exact h
    obtain ⟨⟨factId, body⟩, -, hop⟩ := bind_some hop
    obtain ⟨-, hop⟩ := guard_some hop
    split at hop
    · cases hop
      exact h
    cases body with
    | recover =>
      obtain ⟨state, -, hop⟩ := bind_some hop
      cases hop
      exact prompt_advance
    | terminal event =>
      cases hop
      exact prompt_advance
  | workFinished run writer terminal =>
    obtain ⟨r, hr, hop⟩ := bind_some (show l.workFinished run writer terminal = some l' from hop)
    split at hop
    · cases hop
      exact h
    unfold Lane.finishWorkIn at hop
    split at hop
    · cases hop
      exact h.setRun hr rfl rfl rfl id id
    · obtain ⟨current, -, hop⟩ := bind_some hop
      obtain ⟨state, -, hop⟩ := bind_some hop
      cases hop
      exact prompt_advance
  | confirmAgentExit run lease =>
    obtain ⟨r, hr, hop⟩ := bind_some (show l.confirmAgentExit run lease = some l' from hop)
    split at hop
    · cases hop
      exact h
    · cases hop
      have hexit := h.setRun hr (p := { r with agentExitedAt := true }) rfl rfl rfl id id
      exact hexit.recover run
  | recover run =>
    cases hop
    exact h.recover run
  | prune anchor => exact prompt_prune hs hop

/-! ## Marks are not premature -/

theorem dependencies_sealed (hs : l.Sealing) {mailbox : Nat}
    (hdep : l.laneDependenciesReady mailbox = true) {k : Nat} {q : Run}
    (hk : l.runs.get k = some q) (hlt : q.mailboxPosition < mailbox) (hstart : q.startedAt = true) :
    q.outputSealedAt = true := by
  obtain ⟨-, -, hall⟩ := (dependencies_iff l _).mp hdep
  obtain ⟨hsettled, hpending⟩ := hall k q hk
  have hterm := hsettled hlt
  unfold Run.settled at hterm
  rw [Bool.and_eq_true] at hterm
  obtain hf | hsealed := (hs k q hk).closing hterm.1 hstart
  · unfold Run.pendingSeal at hpending
    rw [hf, Bool.true_and, Bool.not_eq_false'] at hpending
    exact hpending
  · exact hsealed

theorem Clear.advance (h : l.Clear) (hs : l.Sealing) : l.advanceLaneReadiness.Clear := by
  intro k r' j q' hk hready hj hlt hstart
  obtain ⟨r, hr, rfl⟩ := Option.map_eq_some_iff.mp hk
  obtain ⟨q, hq, rfl⟩ := Option.map_eq_some_iff.mp hj
  have hqs := advance_same (l := l) (q := q)
  have hrs := advance_same (l := l) (q := r)
  rw [hqs.sealed]
  rw [hqs.started] at hstart
  rw [hqs.position, hrs.position] at hlt
  beta_reduce at hready
  split at hready
  · rename_i hc
    simp only [Bool.and_eq_true] at hc
    exact dependencies_sealed hs hc.2 hq hlt hstart
  · exact h k r j q hr hready hq hlt hstart

theorem Clear.recover (h : l.Clear) (hs : l.Sealing) (run : Nat) :
    (l.recoverQuarantinedSession run).Clear := by
  obtain heq | ⟨-, -, -, heq⟩ := recover_eq l run
  · rw [heq]
    exact h
  · rw [heq]
    exact Clear.advance (l := { l with state := .idle }) h hs

theorem Clear.setRun (h : l.Clear) (hi : l.Inv) {k : Nat} {r p : Run} (hk : l.runs.get k = some r)
    (hpos : p.mailboxPosition = r.mailboxPosition) (hready : p.readyAt = true → r.readyAt = true)
    (hsealed : isTerminalRunState r.state = true → p.startedAt = true →
      (r.startedAt = true → r.outputSealedAt = true) → p.outputSealedAt = true) :
    (l.setRun k p).Clear := by
  intro i x j y hx hmark hy hlt hstart
  unfold Lane.setRun at hx hy
  rw [Table.get_set] at hx hy
  split at hx <;> split at hy
  · cases hx
    cases hy
    omega
  · cases hx
    rw [hpos] at hlt
    exact h k r j y hk (hready hmark) hy hlt hstart
  · cases hy
    rw [hpos] at hlt
    exact hsealed (hi.rows.ordered hx (.inr hmark) hk hlt) hstart
      fun hs => h i x k r hx hmark hk hlt hs
  · exact h i x j y hx hmark hy hlt hstart

theorem sealing_of_advance (h : l.advanceLaneReadiness.Sealing) : l.Sealing := by
  intro k r hk
  have hr := h k _ (by
    unfold advanceLaneReadiness
    rw [Table.get_mapRows, hk, Option.map_some])
  beta_reduce at hr
  split at hr
  · exact hr.ready r.readyAt
  · exact hr

theorem sealing_of_recover {run : Nat} (h : (l.recoverQuarantinedSession run).Sealing) :
    l.Sealing := by
  obtain heq | ⟨-, -, -, heq⟩ := recover_eq l run
  · rw [heq] at h
    exact h
  · rw [heq] at h
    exact sealing_of_advance (l := { l with state := .idle }) h

theorem clear_moveInput (h : l.Clear) {run other : Nat}
    (hs' : l'.Sealing) (hop : l.moveInput run other = some l') : l'.Clear := by
  unfold Lane.moveInput at hop
  obtain ⟨r, hr, hop⟩ := bind_some hop
  obtain ⟨o, ho, hop⟩ := bind_some hop
  obtain ⟨hg, hop⟩ := guard_some hop
  obtain ⟨-, hop⟩ := guard_some hop
  cases hop
  simp only [Bool.and_eq_true, decide_eq_true_eq] at hg
  obtain ⟨hqr, hsr⟩ := editable_spec hg.1.1.1
  obtain ⟨hqo, hso⟩ := editable_spec hg.1.1.2
  refine Clear.advance ?_ (sealing_of_advance hs')
  intro k x j y hk hmark hj hlt hstart
  obtain ⟨x', hx', hposx, hx⟩ := Rows.get_swap hr ho hg.2 hqr hqo hsr hso hk
  obtain ⟨y', hy', hposy, hy⟩ := Rows.get_swap hr ho hg.2 hqr hqo hsr hso hj
  rw [hposx, hposy] at hlt
  obtain ⟨rfl, -⟩ | ⟨hnot, -⟩ := hx
  · obtain ⟨rfl, -⟩ | ⟨hnot, -⟩ := hy
    · exact h _ _ _ _ hx' hmark hy' hlt hstart
    · exact absurd (.inl hstart) hnot
  · exact absurd (.inr hmark) hnot

theorem clear_cancel (h : l.Clear) (hi : l.Inv) {k : Nat} {r : Run} (hk : l.runs.get k = some r)
    (hstart : r.startedAt = false)
    (hs' : (advanceLaneReadiness
      (l.setRun k { r with state := .cancelled, readyAt := false })).Sealing) :
    (advanceLaneReadiness (l.setRun k { r with state := .cancelled, readyAt := false })).Clear := by
  refine Clear.advance (h.setRun hi hk rfl nofun ?_) (sealing_of_advance hs')
  intro _ hs _
  rw [show r.startedAt = true from hs] at hstart
  cases hstart

theorem clear_acceptInput (h : l.Clear) (hs : l.Sealing) {run : Nat} {chat : Bool}
    (hop : l.acceptInput run chat = some l') : l'.Clear := by
  unfold Lane.acceptInput at hop
  obtain ⟨hg, hop⟩ := guard_some hop
  cases hop
  intro k x j y hx hmark hy hlt hstart
  dsimp only at hx hy
  rw [Table.get_set] at hx hy
  split at hy
  · cases hy
    cases hstart
  · split at hx
    · cases hx
      exact dependencies_sealed hs hmark hy hlt hstart
    · exact h k x j y hx hmark hy hlt hstart

theorem Clear.keepRow (h : l.Clear) (hi : l.Inv) {k : Nat} {r p : Run} (hk : l.runs.get k = some r)
    (hpos : p.mailboxPosition = r.mailboxPosition) (hready : p.readyAt = r.readyAt)
    (hstart : p.startedAt = r.startedAt)
    (hsealed : r.outputSealedAt = true → p.outputSealedAt = true) : (l.setRun k p).Clear :=
  h.setRun hi hk hpos (fun hm => hready ▸ hm) fun _ hs hclosed => hsealed (hclosed (hstart ▸ hs))

theorem clear_requested (h : l.Clear) (hi : l.Inv) {k factId : Nat} {body : SealBody} {r p : Run}
    (hk : l.runs.get k = some r) (state : RunState)
    (hp : requestExecutionStreamSeal { r with state } factId body = some p) :
    (l.setRun k { p with executionReleasedAt := true }).Clear := by
  obtain ⟨fact, recovery, rfl⟩ := requestSeal_eq hp
  exact h.keepRow hi hk rfl rfl rfl id

theorem clear_projectSeal (h : l.Clear) (hi : l.Inv) (hs' : l'.Sealing)
    {run writer factId : Nat} {writerSealed : Bool}
    (hop : l.projectSeal run writer factId writerSealed = some l') : l'.Clear := by
  obtain ⟨r, hr, ⟨rfl, -⟩ | ⟨-, -, hstate, rfl⟩ | ⟨event, released, -, rfl | rfl⟩⟩ :=
    projectSeal_cases hop
  · exact h
  · refine Clear.advance (h.setRun hi hr rfl nofun fun hterm => ?_) (sealing_of_advance hs')
    rw [hstate] at hterm
    cases hterm
  · have hsealed := h.keepRow hi hr (p := { r with
      outputSealedAt := true, executionReleasedAt := released }) rfl rfl rfl fun _ => rfl
    exact hsealed.advance (sealing_of_advance hs')
  · have hsealed := h.keepRow hi hr (p := { r with
      outputSealedAt := true, executionReleasedAt := released }) rfl rfl rfl fun _ => rfl
    have hs'' := sealing_of_advance hs'
    exact (hsealed.recover (sealing_of_recover hs'') run).advance hs''

theorem clear_prune (h : l.Clear) {anchor : Nat} (hop : l.prune anchor = some l') : l'.Clear := by
  unfold Lane.prune at hop
  obtain ⟨-, hop⟩ := guard_some hop
  obtain ⟨-, hop⟩ := guard_some hop
  obtain ⟨-, hop⟩ := guard_some hop
  obtain ⟨-, hop⟩ := guard_some hop
  obtain ⟨-, hop⟩ := guard_some hop
  cases hop
  intro k x j y hk hmark hj hlt hstart
  obtain ⟨r, hr, rfl⟩ := Option.map_eq_some_iff.mp hk
  obtain ⟨q, hq, rfl⟩ := Option.map_eq_some_iff.mp hj
  have hsame : ∀ p : Run, Run.Same p (if anchor < p.mailboxPosition then { p with prunedAt := true }
      else p) := by
    intro p
    split
    · exact ⟨rfl, rfl, rfl, rfl, rfl, rfl, rfl⟩
    · exact .refl p
  have hready : r.readyAt = true := by
    beta_reduce at hmark
    split at hmark <;> exact hmark
  rw [(hsame q).sealed]
  rw [(hsame q).started] at hstart
  rw [(hsame q).position, (hsame r).position] at hlt
  exact h k r j q hr hready hq hlt hstart

theorem Clear.apply (h : l.Clear) (hs : l.Sealing) (hi : l.Inv) {op : LaneOp}
    (hop : l.apply op = some l') : l'.Clear := by
  have hs' := hs.apply hi hop
  cases op with
  | acceptInput run chat => exact clear_acceptInput h hs hop
  | moveInput run other => exact clear_moveInput h hs' hop
  | cancelInput run =>
    obtain ⟨r, hr, hop⟩ := bind_some (show l.cancelInput run = some l' from hop)
    obtain ⟨hg, hop⟩ := guard_some hop
    cases hop
    exact clear_cancel h hi hr (editable_spec hg).2 hs'
  | cancelTurn run =>
    obtain ⟨r, hr, hop⟩ := bind_some (show l.cancelTurn run = some l' from hop)
    obtain ⟨hg, hop⟩ := guard_some hop
    cases hop
    simp only [Bool.and_eq_true, Bool.not_eq_true'] at hg
    exact clear_cancel h hi hr hg.1.2 hs'
  | claim run lease =>
    obtain ⟨r, hr, hop⟩ := bind_some (show l.claim run lease = some l' from hop)
    obtain ⟨hg, hop⟩ := guard_some hop
    obtain ⟨-, hop⟩ := guard_some hop
    cases hop
    simp only [Bool.and_eq_true, decide_eq_true_eq] at hg
    refine h.setRun hi hr rfl nofun fun hterm => ?_
    rw [hg.1.1.1] at hterm
    cases hterm
  | projectNative run writer pending =>
    obtain ⟨r, -, hop⟩ := bind_some (show l.projectNative run writer pending = some l' from hop)
    obtain ⟨-, hop⟩ := guard_some hop
    cases hop
    exact h
  | recordFailure run lease factId timedOut q =>
    obtain ⟨r, hr, hop⟩ :=
      bind_some (show l.recordFailure run lease factId timedOut q = some l' from hop)
    obtain ⟨-, hop⟩ := guard_some hop
    obtain ⟨state, -, hop⟩ := bind_some hop
    obtain ⟨p, hp, hop⟩ := bind_some hop
    obtain ⟨-, hop⟩ := guard_some hop
    obtain ⟨next, -, hop⟩ := bind_some hop
    cases hop
    exact clear_requested h hi hr state hp
  | requestRecovery run lease factId =>
    obtain ⟨r, hr, hop⟩ := bind_some (show l.requestRecovery run lease factId = some l' from hop)
    split at hop
    · cases hop
      exact h
    · obtain ⟨-, hop⟩ := guard_some hop
      obtain ⟨p, hp, hop⟩ := bind_some hop
      cases hop
      exact clear_requested h hi hr r.state hp
  | reconcile run lease factId =>
    obtain ⟨r, hr, hop⟩ := bind_some (show l.reconcile run lease factId = some l' from hop)
    obtain ⟨-, hop⟩ := guard_some hop
    split at hop
    · obtain ⟨-, hop⟩ := guard_some hop
      obtain ⟨p, hp, hop⟩ := bind_some hop
      cases hop
      exact clear_requested h hi hr r.state hp
    · obtain ⟨-, hop⟩ := guard_some hop
      cases hop
      exact h.keepRow hi hr rfl rfl rfl id
  | markStarted run lease =>
    obtain ⟨r, hr, hop⟩ := bind_some (show l.markStarted run lease = some l' from hop)
    obtain ⟨-, hop⟩ := guard_some hop
    obtain ⟨state, -, hop⟩ := bind_some hop
    obtain ⟨next, -, hop⟩ := bind_some hop
    cases hop
    exact h.keepRow hi hr rfl rfl rfl id
  | cancellationFailed run lease factId =>
    obtain ⟨r, hr, hop⟩ := bind_some (show l.cancellationFailed run lease factId = some l' from hop)
    obtain ⟨-, hop⟩ := guard_some hop
    obtain ⟨state, -, hop⟩ := bind_some hop
    obtain ⟨next, -, hop⟩ := bind_some hop
    obtain ⟨p, hp, hop⟩ := bind_some hop
    obtain ⟨-, hop⟩ := guard_some hop
    cases hop
    exact clear_requested h hi hr state hp
  | projectSeal run writer factId writerSealed => exact clear_projectSeal h hi hs' hop
  | workFinished run writer terminal =>
    obtain ⟨r, hr, hop⟩ := bind_some (show l.workFinished run writer terminal = some l' from hop)
    split at hop
    · cases hop
      exact h
    unfold Lane.finishWorkIn at hop
    split at hop
    · cases hop
      exact h.keepRow hi hr rfl rfl rfl id
    · obtain ⟨current, -, hop⟩ := bind_some hop
      obtain ⟨state, -, hop⟩ := bind_some hop
      cases hop
      have hfinished := h.keepRow hi hr (p := { r with
          state, outputSealedAt := true, executionReleasedAt := true, agentExitedAt := true
          recoveryRequestedAt := false }) rfl rfl rfl fun _ => rfl
      exact Clear.advance (l := { l.setRun run _ with state := .idle }) hfinished
        (sealing_of_advance hs')
  | confirmAgentExit run lease =>
    obtain ⟨r, hr, hop⟩ := bind_some (show l.confirmAgentExit run lease = some l' from hop)
    split at hop
    · cases hop
      exact h
    · cases hop
      have hexit := h.keepRow hi hr (p := { r with agentExitedAt := true }) rfl rfl rfl id
      exact hexit.recover (sealing_of_recover hs') run
  | recover run =>
    cases hop
    exact h.recover hs run
  | prune anchor => exact clear_prune h hop

end Lane

/-! ## Over every run -/

/-- What holds of a session after every committed transaction. -/
structure Lane.Kept (l : Lane) : Prop where
  inv : l.Inv
  sealing : l.Sealing
  prompt : l.Prompt
  clear : l.Clear

theorem Lane.Kept.apply {l l' : Lane} (h : l.Kept) {op : LaneOp} (hop : l.apply op = some l') :
    l'.Kept where
  inv := h.inv.apply hop
  sealing := h.sealing.apply h.inv hop
  prompt := h.prompt.apply h.sealing hop
  clear := h.clear.apply h.sealing h.inv hop

theorem Lane.Kept.create (kind : SessionKind) (next : Nat) :
    Lane.Kept { kind, nextMailboxPosition := next } where
  inv := .create kind next
  sealing := by
    intro k r hk
    cases hk
  prompt := by
    intro k r hk
    cases hk
  clear := by
    intro k r j q hk
    cases hk

theorem Lane.Kept.hide {l : Lane} (h : l.Kept) : Lane.Kept { l with prunedAt := true } where
  inv := ⟨h.inv.rows, h.inv.active, h.inv.failing⟩
  sealing := h.sealing
  prompt := by
    intro k r _ _ hdep
    cases ((Lane.dependencies_iff _ _).mp hdep).2.1
  clear := h.clear

def Db.Kept (db : Db) : Prop := ∀ s l, db.get s = some l → l.Kept

theorem Db.Kept.set {db : Db} (h : db.Kept) (s : Nat) {l : Lane} (hl : l.Kept) :
    Db.Kept (db.set s l) := by
  intro t x hx
  rw [Table.get_set] at hx
  split at hx
  · cases hx
    exact hl
  · exact h t x hx

theorem Db.Kept.step {db db' : Db} (h : db.Kept) {op : Op} (hop : db.step op = some db') :
    db'.Kept := by
  cases op with
  | create s kind next =>
    obtain ⟨-, hop⟩ := guard_some hop
    cases hop
    exact h.set s (.create kind next)
  | on s op =>
    obtain ⟨l, hl, hop⟩ := bind_some hop
    obtain ⟨l', hl', hop⟩ := bind_some hop
    cases hop
    exact h.set s ((h s l hl).apply hl')
  | hide sessions =>
    cases hop
    intro t x hx
    obtain ⟨y, hy, rfl⟩ := Option.map_eq_some_iff.mp hx
    have hk := h t y hy
    beta_reduce
    split
    · exact hk.hide
    · exact hk

theorem Db.Kept.run {db : Db} (h : db.Kept) (ops : List Op) : (db.run ops).Kept := by
  induction ops generalizing db with
  | nil => exact h
  | cons op ops ih =>
    rw [Db.run_cons]
    cases hstep : db.step op with
    | none => exact ih h
    | some db' => exact ih (h.step hstep)

def Run.Closed (r : Run) : Prop :=
  isTerminalRunState r.state = true ∧ (r.startedAt = true → r.outputSealedAt = true)

theorem admitted_in_order {db db' : Db} (h : db.Kept) {s run lease : Nat}
    (hop : db.step (.on s (.claim run lease)) = some db') :
    ∃ l r, db.get s = some l ∧ l.runs.get run = some r ∧
      ∀ k q, l.runs.get k = some q → q.mailboxPosition < r.mailboxPosition → q.Closed := by
  obtain ⟨l, hl, hop⟩ := bind_some hop
  obtain ⟨l', hclaim, -⟩ := bind_some hop
  obtain ⟨r, hr, hclaim⟩ := bind_some (show l.claim run lease = some l' from hclaim)
  obtain ⟨hg, -⟩ := guard_some hclaim
  simp only [Bool.and_eq_true, decide_eq_true_eq] at hg
  have hready := hg.1.1.2
  have hk := h s l hl
  refine ⟨l, r, hl, hr, fun k q hq hlt => ⟨?_, ?_⟩⟩
  · exact hk.inv.rows.ordered hr (.inr hready) hq hlt
  · exact hk.clear run r k q hr hready hq hlt

/-- After every run, each queued Run whose dependencies hold has a ready time, and a Run is admitted
only behind Runs that are terminal, and sealed if they were ever started. -/
theorem readiness_kept (ops : List Op) :
    (∀ s l, (Db.run .empty ops).get s = some l → l.Prompt) ∧
      ∀ s run lease db', (Db.run .empty ops).step (.on s (.claim run lease)) = some db' →
        ∃ l r, (Db.run .empty ops).get s = some l ∧ l.runs.get run = some r ∧
          ∀ k q, l.runs.get k = some q → q.mailboxPosition < r.mailboxPosition → q.Closed := by
  have hkept : (Db.run .empty ops).Kept := by
    refine Db.Kept.run ?_ ops
    intro s l hl
    cases hl
  exact ⟨fun s l hl => (hkept s l hl).prompt, fun s run lease db' hop => admitted_in_order hkept hop⟩

/-- The first of two inputs is cancelled before it has started. The second is admitted, and the
first has nothing to seal. -/
theorem admitted_behind_cancelled :
    ¬ ∀ (ops : List Op) (s run lease : Nat) (db' : Db),
      (Db.run .empty ops).step (.on s (.claim run lease)) = some db' →
        ∀ l r k q, (Db.run .empty ops).get s = some l → l.runs.get run = some r →
          l.runs.get k = some q → q.mailboxPosition < r.mailboxPosition →
          isTerminalRunState q.state = true ∧ q.outputSealedAt = true := by
  intro h
  let ops : List Op := [.create 1 .conversation 1, .on 1 (.acceptInput 1 true),
    .on 1 (.acceptInput 2 true), .on 1 (.cancelInput 1)]
  have hstep : ∃ db', (Db.run .empty ops).step (.on 1 (.claim 2 5)) = some db' :=
    Option.isSome_iff_exists.mp (by decide)
  obtain ⟨db', hs⟩ := hstep
  have hview : (((Db.run .empty ops).get 1).bind (·.runs.get 1)).map
      (fun r => (r.mailboxPosition, r.outputSealedAt)) = some (1, false) ∧
      (((Db.run .empty ops).get 1).bind (·.runs.get 2)).map (·.mailboxPosition) = some 2 := by decide
  obtain ⟨q, hq, hqv⟩ := Option.map_eq_some_iff.mp hview.1
  obtain ⟨l, hl, hq⟩ := Option.bind_eq_some_iff.mp hq
  obtain ⟨r, hr, hrv⟩ := Option.map_eq_some_iff.mp hview.2
  obtain ⟨l', hl', hr⟩ := Option.bind_eq_some_iff.mp hr
  rw [hl] at hl'
  cases hl'
  obtain ⟨hpos, hsealed⟩ := Prod.mk.inj hqv
  have := (h ops 1 2 5 db' hs l r 1 q hl hr hq (by omega)).2
  rw [hsealed] at this
  cases this

/-- One Run of a session is active at most, behind terminal ones and while the session is at work; a
failed session has its failed Run, asked for its seal, and has started none after it. -/
structure Lane.Serial (l : Lane) : Prop where
  single : ∀ k j r q, l.runs.get k = some r → l.runs.get j = some q → r.state.active = true →
    q.state.active = true → k = j
  behind : ∀ k j r q, l.runs.get k = some r → l.runs.get j = some q → r.state.active = true →
    q.mailboxPosition < r.mailboxPosition → isTerminalRunState q.state = true
  working : ∀ k r, l.runs.get k = some r → r.state.active = true → l.state = .running ∨ l.state = .cancelling
  failing : l.state = .failed → ∃ k f, l.failing = some k ∧ LastFailed l.runs k f

def Db.Serial (db : Db) : Prop := ∀ s l, db.get s = some l → l.Serial

theorem runs_serial (ops : List Op) : (Db.run .empty ops).Serial := by
  intro s l hl
  have hempty : Db.Kept .empty := by rintro _ _ ⟨⟩
  have hinv := (hempty.run ops s l hl).inv
  refine ⟨fun k j r q hr hq => hinv.rows.active_unique hr hq, fun k j r q hr hq ha => ?_,
    fun k r hr => hinv.active hr, hinv.failing⟩
  exact hinv.rows.ordered hr (.inl ((hinv.rows.sound hr).active ha)) hq

end Quarantine
end Runtime
end PiCloud
