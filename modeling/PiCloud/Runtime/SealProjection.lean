import Mathlib.Logic.Function.Basic
import PiCloud.Lib.History
import PiCloud.Runtime.LaneReadiness

/-!
# Runtime.SealProjection

The seals of a session from their request to their projection: the leases its Runs are admitted
under, the outbox rows that carry the seal facts, and `#seal` and `#finishWork` of the projector,
which may see a fact again and again.

* `Writer`, `SealRequest`, `Closing`: lease rows, outbox rows, and a session with both.
* `Closing.step`: the operations of the session, and the two projections.
* `Closing.Sound`: a requested fact is the one its Run waits for, or its writer is closed.
* `seals_projectable`: every fact ever requested can be projected at any time.
-/

namespace PiCloud
namespace Runtime
namespace Quarantine

open Lib

/-- `session_leases` -/
structure Writer where
  fencingToken : Nat
  writerFailedAt : Bool := false
  writerSealOffset : Option Nat := none
  releasedAt : Bool := false
  deriving DecidableEq, Repr

/-- `AcceptedExecutionSealFact` with its scope, as the outbox row keeps it. -/
structure SealRequest where
  factId : Nat
  run : Nat
  writer : Nat
  fencingToken : Nat
  body : SealBody
  deriving DecidableEq, Repr

/-- A session, its leases and its outbox. -/
structure Closing where
  lane : Lane
  /-- `pi_sessions.lease_epoch` -/
  leaseEpoch : Nat := 0
  /-- `runs.fencing_token` -/
  fencingTokens : Nat → Option Nat := fun _ => none
  writers : Table Nat Writer := .empty
  outbox : List SealRequest := []

inductive ClosingOp where
  | lane (op : LaneOp)
  /-- the session is hidden by a prune of its parent -/
  | hide
  | projectSeal (fact : SealRequest) (offset : Nat)
  | workFinished (run writer fencingToken : Nat) (terminal : Terminal) (offset : Nat)

namespace Closing

def opened (kind : SessionKind) (nextMailboxPosition : Nat) : Closing where
  lane := { kind, nextMailboxPosition }

variable (c : Closing)

/-- The rows that go with a seal the Run did not have before: the failed writer and the outbox. -/
def insertSeal (run : Nat) (l' : Lane) : Option Closing := do
  let r ← c.lane.runs.get run
  let r' ← l'.runs.get run
  match r.outputSeal, r'.outputSeal with
  | none, some fact =>
    let writer ← r'.leaseId
    let fencingToken ← c.fencingTokens run
    guard (c.outbox.all fun f => f.factId ≠ fact.factId)
    some { c with
      lane := l'
      writers := c.writers.modify writer fun w => { w with writerFailedAt := true }
      outbox := c.outbox ++ [{ factId := fact.factId, run, writer, fencingToken, body := fact.body }] }
  | _, _ => some { c with lane := l' }

/-- Admission takes a lease of its own: `acquireInTransaction` and `#startAdmittedRun`. -/
def claim (run lease : Nat) : Option Closing := do
  guard (c.writers.rows.all (·.releasedAt) && (c.writers.get lease).isNone)
  let l' ← c.lane.claim run lease
  some { c with
    lane := l'
    leaseEpoch := c.leaseEpoch + 1
    fencingTokens := Function.update c.fencingTokens run (some (c.leaseEpoch + 1))
    writers := c.writers.set lease { fencingToken := c.leaseEpoch + 1 } }

/-- `releaseIdleSessionLease` -/
def releaseIdle (l : Lane) (lease : Nat) (w : Writer) : Writer :=
  if w.writerSealOffset.isSome &&
      l.runs.rows.all (fun r => r.leaseId ≠ some lease || r.executionReleasedAt) then
    { w with releasedAt := true }
  else w

def closeWriter (l : Lane) (lease offset : Nat) (w : Writer) : Writer :=
  releaseIdle l lease { w with writerSealOffset := some (w.writerSealOffset.getD offset) }

/-- `#seal`. The Run keeps the fact queued under its seal id, and `Lane.projectSeal` reads it there. -/
def projectSeal (fact : SealRequest) (offset : Nat) : Option Closing :=
  match c.lane.runs.get fact.run with
  | none => some c
  | some r =>
    match c.writers.get fact.writer with
    | none => some c
    | some w =>
      if r.leaseId ≠ some fact.writer && w.writerSealOffset.isSome then some c
      else if r.outputSeal.map (·.factId) ≠ some fact.factId ||
          (c.fencingTokens fact.run).getD 0 ≠ fact.fencingToken then none
      else if r.outputSealedAt then
        if w.writerSealOffset.isNone then
          some { c with writers := c.writers.set fact.writer (closeWriter c.lane fact.writer offset w) }
        else some c
      else do
        let released := if r.leaseId = some fact.writer then { r with executionReleasedAt := true } else r
        let w' := closeWriter (c.lane.setRun fact.run released) fact.writer offset w
        -- `runs_guard_writer_handoff`
        guard (fact.body ≠ .recover || w'.releasedAt)
        let l' ← c.lane.projectSeal fact.run fact.writer fact.factId w.writerSealOffset.isSome
        some { c with
          lane := l'
          writers := c.writers.set fact.writer w'
          fencingTokens := if fact.body = .recover then Function.update c.fencingTokens fact.run none
            else c.fencingTokens }

/-- `#finishWork` -/
def workFinished (run writer fencingToken : Nat) (terminal : Terminal) (offset : Nat) :
    Option Closing :=
  match c.lane.runs.get run, c.writers.get writer with
  | some r, some w =>
    if r.leaseId ≠ some writer || w.writerSealOffset.any (fun sealed => sealed < offset) then
      if w.writerSealOffset.isNone then none else some c
    else if w.fencingToken ≠ fencingToken then none
    else do
      let l' ← c.lane.workFinished run writer terminal
      -- completed work retires its writer, unless another decision has failed it
      if r.outputSealedAt || isTerminalRunState r.state || w.writerFailedAt then
        some { c with lane := l' }
      else
        some { c with
          lane := l'
          writers := c.writers.set writer
            { w with writerSealOffset := some offset, releasedAt := true } }
  | _, _ => some c

def step : ClosingOp → Option Closing
  | .lane op =>
    match op with
    | .claim run lease => c.claim run lease
    | .recordFailure run .. => do c.insertSeal run (← c.lane.apply op)
    | .requestRecovery run .. => do c.insertSeal run (← c.lane.apply op)
    | .reconcile run .. => do c.insertSeal run (← c.lane.apply op)
    | .cancellationFailed run .. => do c.insertSeal run (← c.lane.apply op)
    | .projectSeal .. => none
    | .workFinished .. => none
    | op => do
      let l' ← c.lane.apply op
      some { c with lane := l' }
  | .hide => some { c with lane := { c.lane with prunedAt := true } }
  | .projectSeal fact offset => do
    guard (fact ∈ c.outbox)
    c.projectSeal fact offset
  | .workFinished run writer fencingToken terminal offset =>
    c.workFinished run writer fencingToken terminal offset

def run (ops : List ClosingOp) : Closing := ops.foldl (fun c op => (c.step op).getD c) c

end Closing

/-! ## Owners and seals -/

/-- Runs of `l'` have the owners they had in `l`, or none. -/
def NoNewOwners (l l' : Lane) : Prop := ∀ k r', l'.runs.get k = some r' →
  r'.leaseId = none ∨ ∃ r, l.runs.get k = some r ∧ r.leaseId = r'.leaseId

/-- No owner is new, and requested seals stay. -/
structure OwnersKept (l l' : Lane) : Prop where
  owners : NoNewOwners l l'
  seals : ∀ k r fact, l.runs.get k = some r → r.outputSeal = some fact →
    ∃ r', l'.runs.get k = some r' ∧ r'.leaseId = r.leaseId ∧ r'.outputSeal = some fact

theorem OwnersKept.refl (l : Lane) : OwnersKept l l where
  owners _ r' hr := .inr ⟨r', hr, rfl⟩
  seals _ r _ hr hf := ⟨r, hr, rfl, hf⟩

theorem ownersKept_of_rows {l l' : Lane}
    (h : ∀ k, RowMove false (l.runs.get k) (l'.runs.get k)) : OwnersKept l l' where
  owners k r' hr := by
    have hrow := h k
    rw [hr] at hrow
    generalize hx : l.runs.get k = x at hrow
    cases hrow with
    | fresh hf => exact .inl hf.owned
    | moved ready hm => exact .inr ⟨_, rfl, hm.owner.1.symm⟩
  seals k r fact hr hf := by
    have hrow := h k
    rw [hr] at hrow
    generalize hx : l'.runs.get k = x at hrow
    cases hrow with
    | moved ready hm => exact ⟨_, rfl, hm.owner.1, hm.owner.2.trans hf⟩

theorem ownersKept_set {l l' : Lane} {k : Nat} {r r' : Run} (hr : l.runs.get k = some r)
    (hruns : l'.runs = l.runs.set k r') (howner : r'.leaseId = r.leaseId)
    (hseal : ∀ fact, r.outputSeal = some fact → r'.outputSeal = some fact) : OwnersKept l l' where
  owners j x hx := by
    rw [hruns, Table.get_set] at hx
    split at hx
    · rename_i hj
      cases hx
      rw [hj]
      exact .inr ⟨r, hr, howner.symm⟩
    · exact .inr ⟨x, hx, rfl⟩
  seals j x fact hx hf := by
    rw [hruns, Table.get_set]
    split
    · rename_i hj
      rw [hj, hr] at hx
      cases hx
      exact ⟨r', rfl, howner, hseal fact hf⟩
    · exact ⟨x, hx, rfl, hf⟩

namespace Lane

variable {l l' : Lane}

theorem ownersKept_request {run factId : Nat} {body : SealBody} {r p : Run} (state : RunState)
    (hr : l.runs.get run = some r)
    (hp : requestExecutionStreamSeal { r with state } factId body = some p)
    (hruns : l'.runs = l.runs.set run { p with executionReleasedAt := true }) : OwnersKept l l' := by
  unfold requestExecutionStreamSeal at hp
  split at hp
  · cases hp
  · split at hp
    · cases hp
      exact ownersKept_set hr hruns rfl fun fact hf => hf
    · rename_i hnone
      cases hp
      refine ownersKept_set hr hruns rfl fun fact hf => ?_
      rw [show r.outputSeal = none from hnone] at hf
      cases hf

theorem ownersKept_recordFailure {run lease factId : Nat} {timedOut q : Bool}
    (h : l.recordFailure run lease factId timedOut q = some l') : OwnersKept l l' := by
  unfold Lane.recordFailure at h
  obtain ⟨r, hr, h⟩ := bind_some h
  obtain ⟨-, h⟩ := guard_some h
  obtain ⟨state, -, h⟩ := bind_some h
  obtain ⟨p, hp, h⟩ := bind_some h
  obtain ⟨-, h⟩ := guard_some h
  obtain ⟨next, -, h⟩ := bind_some h
  cases h
  exact ownersKept_request state hr hp rfl

theorem ownersKept_requestRecovery {run lease factId : Nat}
    (h : l.requestRecovery run lease factId = some l') : OwnersKept l l' := by
  unfold Lane.requestRecovery at h
  obtain ⟨r, hr, h⟩ := bind_some h
  split at h
  · cases h
    exact .refl l
  · obtain ⟨-, h⟩ := guard_some h
    obtain ⟨p, hp, h⟩ := bind_some h
    cases h
    exact ownersKept_request r.state hr hp rfl

theorem ownersKept_reconcile {run lease factId : Nat}
    (h : l.reconcile run lease factId = some l') : OwnersKept l l' := by
  unfold Lane.reconcile at h
  obtain ⟨r, hr, h⟩ := bind_some h
  obtain ⟨-, h⟩ := guard_some h
  split at h
  · obtain ⟨-, h⟩ := guard_some h
    obtain ⟨p, hp, h⟩ := bind_some h
    cases h
    exact ownersKept_request r.state hr hp rfl
  · obtain ⟨-, h⟩ := guard_some h
    cases h
    exact ownersKept_set hr rfl rfl fun fact hf => hf

theorem ownersKept_cancellationFailed {run lease factId : Nat}
    (h : l.cancellationFailed run lease factId = some l') : OwnersKept l l' := by
  unfold Lane.cancellationFailed at h
  obtain ⟨r, hr, h⟩ := bind_some h
  obtain ⟨-, h⟩ := guard_some h
  obtain ⟨state, -, h⟩ := bind_some h
  obtain ⟨next, -, h⟩ := bind_some h
  obtain ⟨p, hp, h⟩ := bind_some h
  obtain ⟨-, h⟩ := guard_some h
  cases h
  exact ownersKept_request state hr hp rfl

end Lane

/-! ## The invariant -/

namespace Closing

/-- The Run still has the lease, and the seal is the one recorded for it. -/
def Waiting (c : Closing) (fact : SealRequest) : Prop :=
  ∃ r, c.lane.runs.get fact.run = some r ∧ r.leaseId = some fact.writer ∧
    r.outputSeal = some ⟨fact.factId, fact.body⟩ ∧
    c.fencingTokens fact.run = some fact.fencingToken

def Gone (c : Closing) (fact : SealRequest) : Prop :=
  (∃ w, c.writers.get fact.writer = some w ∧ w.writerSealOffset.isSome = true) ∧
    ∀ k r, c.lane.runs.get k = some r → r.leaseId ≠ some fact.writer

structure Sound (c : Closing) : Prop where
  kept : c.lane.Kept
  leased : ∀ k r lease, c.lane.runs.get k = some r → r.leaseId = some lease →
    ∃ w, c.writers.get lease = some w
  unique : ∀ k j r q lease, c.lane.runs.get k = some r → c.lane.runs.get j = some q →
    r.leaseId = some lease → q.leaseId = some lease → k = j
  facts : ∀ fact ∈ c.outbox, c.Waiting fact ∨ c.Gone fact
  single : ∀ f ∈ c.outbox, ∀ g ∈ c.outbox, f.writer = g.writer → f = g

def WritersKept (ws ws' : Table Nat Writer) : Prop :=
  ∀ lease w, ws.get lease = some w → ∃ w', ws'.get lease = some w' ∧
    (w.writerSealOffset.isSome = true → w'.writerSealOffset.isSome = true)

theorem WritersKept.refl (ws : Table Nat Writer) : WritersKept ws ws :=
  fun _ w hw => ⟨w, hw, id⟩

theorem writersKept_set {ws : Table Nat Writer} {lease : Nat} {w w' : Writer}
    (hw : ws.get lease = some w)
    (hs : w.writerSealOffset.isSome = true → w'.writerSealOffset.isSome = true) :
    WritersKept ws (ws.set lease w') := by
  intro k x hx
  rw [Table.get_set]
  split
  · rename_i hk
    rw [hk, hw] at hx
    cases hx
    exact ⟨w', rfl, hs⟩
  · exact ⟨x, hx, id⟩

variable {c : Closing}

theorem Sound.leased_of_owners (h : c.Sound) {l' : Lane} {ws' : Table Nat Writer}
    (ho : NoNewOwners c.lane l') (hw : WritersKept c.writers ws') {k lease : Nat} {r' : Run}
    (hr' : l'.runs.get k = some r') (hlease : r'.leaseId = some lease) :
    ∃ w, ws'.get lease = some w := by
  obtain hnone | ⟨r, hr, heq⟩ := ho k r' hr'
  · rw [hnone] at hlease
    cases hlease
  · obtain ⟨w, hget⟩ := h.leased k r lease hr (heq.trans hlease)
    obtain ⟨w', hget', -⟩ := hw lease w hget
    exact ⟨w', hget'⟩

theorem Sound.unique_of_owners (h : c.Sound) {l' : Lane} (ho : NoNewOwners c.lane l')
    {k j lease : Nat} {r' q' : Run} (hr' : l'.runs.get k = some r') (hq' : l'.runs.get j = some q')
    (hrl : r'.leaseId = some lease) (hql : q'.leaseId = some lease) : k = j := by
  obtain hnone | ⟨r, hr, heq⟩ := ho k r' hr'
  · rw [hnone] at hrl
    cases hrl
  obtain hnone | ⟨q, hq, heq'⟩ := ho j q' hq'
  · rw [hnone] at hql
    cases hql
  exact h.unique k j r q lease hr hq (heq.trans hrl) (heq'.trans hql)

theorem Gone.keep {fact : SealRequest} (h : c.Gone fact) {l' : Lane} {ws' : Table Nat Writer}
    {tokens : Nat → Option Nat} (ho : NoNewOwners c.lane l') (hw : WritersKept c.writers ws') :
    Gone { c with lane := l', writers := ws', fencingTokens := tokens } fact := by
  obtain ⟨⟨w, hget, hsealed⟩, hno⟩ := h
  obtain ⟨w', hget', hsealed'⟩ := hw fact.writer w hget
  refine ⟨⟨w', hget', hsealed' hsealed⟩, fun k r' hr' hlease => ?_⟩
  obtain hnone | ⟨r, hr, heq⟩ := ho k r' hr'
  · rw [hnone] at hlease
    cases hlease
  · exact hno k r hr (heq.trans hlease)

theorem Sound.keep (h : c.Sound) {l' : Lane} {ws' : Table Nat Writer} (hk : l'.Kept)
    (ho : OwnersKept c.lane l') (hw : WritersKept c.writers ws') :
    Sound { c with lane := l', writers := ws' } where
  kept := hk
  leased _ _ _ := h.leased_of_owners ho.owners hw
  unique _ _ _ _ _ := h.unique_of_owners ho.owners
  facts fact hf := by
    obtain ⟨r, hr, hlease, hseal, htoken⟩ | hgone := h.facts fact hf
    · obtain ⟨r', hr', hlease', hseal'⟩ := ho.seals fact.run r _ hr hseal
      exact .inl ⟨r', hr', hlease'.trans hlease, hseal', htoken⟩
    · exact .inr (hgone.keep ho.owners hw)
  single := h.single

theorem Sound.insertSeal (h : c.Sound) {run : Nat} {l' : Lane} {c' : Closing} (hk : l'.Kept)
    (ho : OwnersKept c.lane l') (hop : c.insertSeal run l' = some c') : c'.Sound := by
  unfold Closing.insertSeal at hop
  obtain ⟨r, hr, hop⟩ := bind_some hop
  obtain ⟨r', hr', hop⟩ := bind_some hop
  split at hop
  · rename_i fact hnone hseal
    obtain ⟨writer, hwriter, hop⟩ := bind_some hop
    obtain ⟨token, htoken, hop⟩ := bind_some hop
    obtain ⟨-, hop⟩ := guard_some hop
    cases hop
    obtain hnone' | ⟨p, hp, howner⟩ := ho.owners run r' hr'
    · rw [hnone'] at hwriter
      cases hwriter
    rw [hr] at hp
    cases hp
    have hws : WritersKept c.writers
        (c.writers.modify writer fun w => { w with writerFailedAt := true }) := by
      intro lease w hw
      rw [Table.get_modify]
      split
      · rename_i heq
        rw [← heq, hw]
        exact ⟨_, rfl, id⟩
      · exact ⟨w, hw, id⟩
    have hkeep := h.keep hk ho hws
    -- no fact of this writer was requested before
    have hfresh : ∀ f ∈ c.outbox, f.writer ≠ writer := by
      intro f hf heq
      obtain ⟨q, hq, hlease, hqseal, -⟩ | ⟨-, hno⟩ := h.facts f hf
      · obtain rfl := h.unique f.run run q r writer hq hr (heq ▸ hlease) (howner.trans hwriter)
        rw [hr] at hq
        cases hq
        rw [hnone] at hqseal
        cases hqseal
      · exact hno run r hr (heq ▸ howner.trans hwriter)
    refine ⟨hkeep.kept, hkeep.leased, hkeep.unique, ?_, ?_⟩
    · intro f hf
      obtain hf | rfl := mem_snoc.mp hf
      · exact hkeep.facts f hf
      · exact .inl ⟨r', hr', hwriter, hseal, htoken⟩
    · exact unique_snoc h.single hfresh
  · cases hop
    exact h.keep hk ho (.refl _)

theorem Sound.claim (h : c.Sound) {run lease : Nat} {c' : Closing}
    (hop : c.claim run lease = some c') : c'.Sound := by
  unfold Closing.claim at hop
  obtain ⟨hg, hop⟩ := guard_some hop
  obtain ⟨l', hclaim, hop⟩ := bind_some hop
  cases hop
  simp only [Bool.and_eq_true, Option.isNone_iff_eq_none] at hg
  have hk : l'.Kept := h.kept.apply (show c.lane.apply (.claim run lease) = some l' from hclaim)
  unfold Lane.claim at hclaim
  obtain ⟨r, hr, hclaim⟩ := bind_some hclaim
  obtain ⟨hidle, hclaim⟩ := guard_some hclaim
  obtain ⟨-, hclaim⟩ := guard_some hclaim
  cases hclaim
  simp only [Bool.and_eq_true, decide_eq_true_eq, Option.isNone_iff_eq_none] at hidle
  have hfree : r.leaseId = none := hidle.1.2
  have hunused : ∀ k q, c.lane.runs.get k = some q → q.leaseId ≠ some lease := by
    intro k q hq hlease
    obtain ⟨w, hw⟩ := h.leased k q lease hq hlease
    rw [hg.2] at hw
    cases hw
  have hrow : ∀ k q, (c.lane.runs.set run { r with
      state := .running, readyAt := false, startedAt := true, recoveryRequestedAt := false
      leaseId := some lease }).get k = some q →
      (k = run ∧ q.leaseId = some lease) ∨ (k ≠ run ∧ c.lane.runs.get k = some q) := by
    intro k q hq
    rw [Table.get_set] at hq
    split at hq
    · rename_i hkr
      cases hq
      exact .inl ⟨hkr, rfl⟩
    · rename_i hkr
      exact .inr ⟨hkr, hq⟩
  refine ⟨hk, ?_, ?_, ?_, h.single⟩
  · intro k q held hq hheld
    dsimp only
    rw [Table.get_set]
    split
    · exact ⟨_, rfl⟩
    · rename_i hne
      obtain ⟨-, heq⟩ | ⟨-, hq⟩ := hrow k q hq
      · rw [hheld] at heq
        exact absurd (Option.some.inj heq) hne
      · exact h.leased k q held hq hheld
  · intro k j q p held hq hp hqh hph
    obtain ⟨hkr, hql⟩ | ⟨-, hq⟩ := hrow k q hq <;> obtain ⟨hjr, hpl⟩ | ⟨-, hp⟩ := hrow j p hp
    · rw [hkr, hjr]
    · rw [hqh] at hql
      exact absurd (hph.trans hql) (hunused j p hp)
    · rw [hph] at hpl
      exact absurd (hqh.trans hpl) (hunused k q hq)
    · exact h.unique k j q p held hq hp hqh hph
  · intro fact hf
    obtain ⟨q, hq, hlease, hseal, htoken⟩ | ⟨⟨w, hw, hsealed⟩, hno⟩ := h.facts fact hf
    · have hne : fact.run ≠ run := by
        intro heq
        rw [heq, hr] at hq
        cases hq
        rw [hfree] at hlease
        cases hlease
      refine .inl ⟨q, ?_, hlease, hseal, ?_⟩
      · exact (Table.get_set ..).trans ((if_neg hne).trans hq)
      · exact (Function.update_of_ne hne ..).trans htoken
    · have hne : fact.writer ≠ lease := by
        intro heq
        rw [heq, hg.2] at hw
        cases hw
      refine .inr ⟨⟨w, (Table.get_set ..).trans ((if_neg hne).trans hw), hsealed⟩, ?_⟩
      intro k q hq hlease
      obtain ⟨-, hql⟩ | ⟨-, hq⟩ := hrow k q hq
      · rw [hlease] at hql
        exact hne (Option.some.inj hql)
      · exact hno k q hq hlease

theorem Sound.requeue (h : c.Sound) {fact : SealRequest} {l' : Lane} {w w' : Writer} (hk : l'.Kept)
    (hw : c.writers.get fact.writer = some w) (hsealed : w'.writerSealOffset.isSome = true)
    (hin : fact ∈ c.outbox) (hwait : c.Waiting fact)
    (hrun : ∀ r', l'.runs.get fact.run = some r' → r'.leaseId = none)
    (hother : ∀ k, k ≠ fact.run → RowMove false (c.lane.runs.get k) (l'.runs.get k)) :
    Sound { c with
      lane := l', writers := c.writers.set fact.writer w'
      fencingTokens := Function.update c.fencingTokens fact.run none } := by
  have hws : WritersKept c.writers (c.writers.set fact.writer w') :=
    writersKept_set hw fun _ => hsealed
  have ho : NoNewOwners c.lane l' := by
    intro k r' hr'
    by_cases hkr : k = fact.run
    · exact .inl (hrun r' (hkr ▸ hr'))
    · have hrow := hother k hkr
      rw [hr'] at hrow
      generalize hx : c.lane.runs.get k = x at hrow
      cases hrow with
      | fresh hf => exact .inl hf.owned
      | moved ready hm => exact .inr ⟨_, rfl, hm.owner.1.symm⟩
  obtain ⟨r, hr, hlease, -⟩ := hwait
  refine ⟨hk, fun _ _ _ => h.leased_of_owners ho hws, fun _ _ _ _ _ => h.unique_of_owners ho, ?_,
    h.single⟩
  intro g hg
  obtain ⟨q, hq, hqlease, hqseal, htoken⟩ | hgone := h.facts g hg
  · by_cases hkr : g.run = fact.run
    · -- it is the fact itself, and its Run was the only owner
      rw [hkr, hr] at hq
      cases hq
      obtain rfl := h.single g hg fact hin (Option.some.inj (hqlease.symm.trans hlease))
      refine .inr ⟨⟨w', Table.get_set_self .., hsealed⟩, fun k r' hr' hheld => ?_⟩
      obtain hnone | ⟨p, hp, heq⟩ := ho k r' hr'
      · rw [hnone] at hheld
        cases hheld
      · obtain rfl := h.unique k g.run p r g.writer hp hr (heq.trans hheld) hlease
        rw [hrun r' hr'] at hheld
        cases hheld
    · have hrow := hother g.run hkr
      rw [hq] at hrow
      generalize hx : l'.runs.get g.run = x at hrow
      cases hrow with
      | moved ready hm =>
        exact .inl ⟨_, hx, hm.owner.1.trans hqlease, hm.owner.2.trans hqseal,
          (Function.update_of_ne hkr ..).trans htoken⟩
  · exact .inr (hgone.keep ho hws)

@[simp] theorem closeWriter_sealed (l : Lane) (lease offset : Nat) (w : Writer) :
    (closeWriter l lease offset w).writerSealOffset.isSome = true := by
  unfold closeWriter releaseIdle
  split <;> rfl

theorem Sound.projectSeal (h : c.Sound) {fact : SealRequest} {offset : Nat} {c' : Closing}
    (hin : fact ∈ c.outbox) (hop : c.projectSeal fact offset = some c') : c'.Sound := by
  unfold Closing.projectSeal at hop
  split at hop
  · cases hop
    exact h
  rename_i r hr
  split at hop
  · cases hop
    exact h
  rename_i w hw
  split at hop
  · cases hop
    exact h
  rename_i hown
  split at hop
  · cases hop
  split at hop
  · split at hop
    · cases hop
      exact h.keep h.kept (.refl _) (writersKept_set hw fun _ => closeWriter_sealed ..)
    · cases hop
      exact h
  obtain ⟨-, hop⟩ := guard_some hop
  obtain ⟨l', hl', hop⟩ := bind_some hop
  cases hop
  have hk : l'.Kept :=
    h.kept.apply (show c.lane.apply (.projectSeal ..) = some l' from hl')
  -- a fact whose Run has left it was passed over
  have hwait : c.Waiting fact := by
    obtain hwait | ⟨⟨x, hx, hsealed⟩, hno⟩ := h.facts fact hin
    · exact hwait
    · rw [hw] at hx
      cases hx
      refine absurd ?_ hown
      simp only [hno fact.run r hr, hsealed, ne_eq, not_false_eq_true, decide_true, Bool.and_self]
  obtain ⟨q, hq, -, hseal, -⟩ := id hwait
  rw [hr] at hq
  cases hq
  obtain ⟨p, hp, hcase⟩ := Lane.projectSeal_cases hl'
  rw [hr] at hp
  cases hp
  obtain ⟨rfl, hpassed | hsealed⟩ | ⟨hfact, hopen, hstate, heq⟩ | ⟨event, released, hfact, heq⟩ :=
    hcase
  · refine absurd ?_ hown
    simp only [hpassed.1, hpassed.2, ne_eq, not_false_eq_true, decide_true, Bool.and_self]
  · exact absurd hsealed ‹_›
  · rw [hfact] at hseal
    have hbody : fact.body = .recover := congrArg SealFact.body (Option.some.inj hseal).symm
    rw [if_pos hbody]
    refine h.requeue hk hw (closeWriter_sealed ..) hin hwait ?_ ?_
    · intro r' hr'
      have hrow : RowMove false (some (r.requeued .queued)) (l'.runs.get fact.run) := by
        rw [heq]
        refine .advance ?_
        exact (Table.get_set_self c.lane.runs fact.run (r.requeued .queued)).symm ▸ .refl _
      rw [hr'] at hrow
      cases hrow with
      | moved ready hm => exact hm.owner.1
    · intro k hkr
      rw [heq]
      refine .advance ?_
      exact (if_neg hkr ▸ Table.get_set c.lane.runs fact.run k _) ▸ .refl _
  · rw [hfact] at hseal
    have hbody : fact.body = .terminal event := congrArg SealFact.body (Option.some.inj hseal).symm
    rw [if_neg (by rw [hbody]; nofun)]
    exact h.keep hk (ownersKept_of_rows (Lane.row_sealed hr hfact heq))
      (writersKept_set hw fun _ => closeWriter_sealed ..)

theorem Sound.workFinished (h : c.Sound) {run writer token offset : Nat} {terminal : Terminal}
    {c' : Closing} (hop : c.workFinished run writer token terminal offset = some c') : c'.Sound := by
  unfold Closing.workFinished at hop
  split at hop
  · rename_i r w hr hw
    split at hop
    · split at hop
      · cases hop
      · cases hop
        exact h
    split at hop
    · cases hop
    obtain ⟨l', hl', hop⟩ := bind_some hop
    have hk : l'.Kept := h.kept.apply (show c.lane.apply (.workFinished ..) = some l' from hl')
    have ho := ownersKept_of_rows (Lane.row_workFinished hl')
    split at hop
    · cases hop
      exact h.keep hk ho (.refl _)
    · cases hop
      exact h.keep hk ho (writersKept_set hw fun _ => rfl)
  · cases hop
    exact h

theorem Sound.plain (h : c.Sound) {op : LaneOp} {c' : Closing} (howns : op.owns = false)
    (hop : (do let l' ← c.lane.apply op; some { c with lane := l' }) = some c') : c'.Sound := by
  obtain ⟨l', hl', hop⟩ := bind_some hop
  cases hop
  have hrow := Lane.apply_row hl'
  rw [howns] at hrow
  exact h.keep (h.kept.apply hl') (ownersKept_of_rows hrow) (.refl _)

theorem Sound.step (h : c.Sound) {op : ClosingOp} {c' : Closing} (hop : c.step op = some c') :
    c'.Sound := by
  cases op with
  | lane op =>
    cases op with
    | claim run lease => exact h.claim hop
    | recordFailure run lease factId timedOut q =>
      obtain ⟨l', hl', hop⟩ := bind_some hop
      exact h.insertSeal (h.kept.apply hl') (Lane.ownersKept_recordFailure hl') hop
    | requestRecovery run lease factId =>
      obtain ⟨l', hl', hop⟩ := bind_some hop
      exact h.insertSeal (h.kept.apply hl') (Lane.ownersKept_requestRecovery hl') hop
    | reconcile run lease factId =>
      obtain ⟨l', hl', hop⟩ := bind_some hop
      exact h.insertSeal (h.kept.apply hl') (Lane.ownersKept_reconcile hl') hop
    | cancellationFailed run lease factId =>
      obtain ⟨l', hl', hop⟩ := bind_some hop
      exact h.insertSeal (h.kept.apply hl') (Lane.ownersKept_cancellationFailed hl') hop
    | projectSeal run writer factId writerSealed => cases hop
    | workFinished run writer terminal => cases hop
    | acceptInput run chat => exact h.plain rfl hop
    | moveInput run other => exact h.plain rfl hop
    | cancelInput run => exact h.plain rfl hop
    | cancelTurn run => exact h.plain rfl hop
    | projectNative run writer pending => exact h.plain rfl hop
    | markStarted run lease => exact h.plain rfl hop
    | confirmAgentExit run lease => exact h.plain rfl hop
    | recover run => exact h.plain rfl hop
    | prune anchor => exact h.plain rfl hop
  | hide =>
    cases hop
    exact h.keep h.kept.hide ⟨(OwnersKept.refl c.lane).owners, (OwnersKept.refl c.lane).seals⟩ (.refl _)
  | projectSeal fact offset =>
    obtain ⟨hin, hop⟩ := guard_some hop
    exact h.projectSeal hin hop
  | workFinished run writer token terminal offset => exact h.workFinished hop

theorem sound_opened (kind : SessionKind) (next : Nat) : (opened kind next).Sound where
  kept := .create kind next
  leased := by
    intro k r lease hr
    cases hr
  unique := by
    intro k j r q lease hr
    cases hr
  facts := by
    intro fact hf
    cases hf
  single := by
    intro f hf
    cases hf

theorem Sound.run (h : c.Sound) (ops : List ClosingOp) : (c.run ops).Sound := by
  unfold Closing.run
  induction ops generalizing c with
  | nil => exact h
  | cons op ops ih =>
    rw [List.foldl_cons]
    cases hstep : c.step op with
    | none => exact ih h
    | some c' => exact ih (h.step hstep)

/-! ## Projection -/

theorem Sound.handoff (h : c.Sound) {run lease offset : Nat} {r : Run} (w : Writer)
    (hr : c.lane.runs.get run = some r) (hlease : r.leaseId = some lease) :
    (closeWriter (c.lane.setRun run { r with executionReleasedAt := true }) lease offset
      w).releasedAt = true := by
  unfold closeWriter releaseIdle
  rw [if_pos]
  simp only [Option.isSome_some, Bool.true_and, List.all_eq_true]
  intro q hq
  obtain ⟨k, hk⟩ := Table.mem_rows.mp hq
  unfold Lane.setRun at hk
  rw [Table.get_set] at hk
  split at hk
  · cases hk
    exact Bool.or_true _
  · rename_i hne
    have hother : q.leaseId ≠ some lease := fun hql => hne (h.unique k run q r lease hk hr hql hlease)
    simp only [hother, ne_eq, not_false_eq_true, decide_true, Bool.true_or]

theorem requeue_active {state : RunState} (h : state.active = true) :
    transitionLockedRun state .queued = some .queued := by
  cases state with
  | queued => cases h
  | running => rfl
  | settling => rfl
  | cancelRequested => rfl
  | completed => cases h
  | failed => cases h
  | cancelled => cases h
  | timedOut => cases h

theorem projectSeal_owned {l : Lane} {run writer : Nat} {r : Run} {fact : SealFact} (sealed : Bool)
    (hr : l.runs.get run = some r) (hlease : r.leaseId = some writer)
    (hseal : r.outputSeal = some fact) (hactive : fact.body = .recover → r.state.active = true) :
    (l.projectSeal run writer fact.factId sealed).isSome = true := by
  unfold Lane.projectSeal
  rw [hr]
  obtain ⟨factId, body⟩ := fact
  simp only [Option.bind_eq_bind, Option.bind_some, hlease, hseal, ne_eq, not_true_eq_false,
    decide_false, Bool.false_and, Bool.false_eq_true, if_false, guard, if_true]
  split
  · rfl
  · cases body with
    | recover => rw [requeue_active (hactive rfl)]; rfl
    | terminal event => cases event <;> rfl

theorem Sound.projectable (h : c.Sound) {fact : SealRequest} (hin : fact ∈ c.outbox) (offset : Nat) :
    (c.projectSeal fact offset).isSome = true := by
  obtain ⟨r, hr, hlease, hseal, htoken⟩ | ⟨⟨w, hw, hsealed⟩, hno⟩ := h.facts fact hin
  · obtain ⟨w, hw⟩ := h.leased fact.run r fact.writer hr hlease
    have hs := h.kept.sealing fact.run r hr
    unfold Closing.projectSeal
    rw [hr, hw]
    dsimp only
    rw [if_neg (by simp only [hlease, ne_eq, not_true_eq_false, decide_false, Bool.false_and,
        Bool.false_eq_true, not_false_eq_true]),
      if_neg (by simp only [hseal, htoken, Option.map_some, Option.getD_some, ne_eq,
        not_true_eq_false, decide_false, Bool.or_self, Bool.false_eq_true, not_false_eq_true])]
    split
    · split <;> rfl
    · rename_i hopen
      have hactive : fact.body = .recover → r.state.active = true := by
        intro hbody
        rw [hbody] at hseal
        exact (hs.recover _ hseal).elim (fun hsealed => absurd hsealed hopen) And.left
      obtain ⟨l', hl'⟩ : ∃ l', c.lane.projectSeal fact.run fact.writer fact.factId
          w.writerSealOffset.isSome = some l' :=
        Option.isSome_iff_exists.mp (projectSeal_owned _ hr hlease hseal hactive)
      rw [h.handoff w hr hlease, Bool.or_true, hl']
      rfl
  · unfold Closing.projectSeal
    rw [hw]
    split
    · rfl
    · rename_i r hr
      dsimp only
      rw [if_pos]
      · rfl
      · simp only [hno fact.run r hr, hsealed, ne_eq, not_false_eq_true, decide_true, Bool.and_self]

/-- The Run that the fact closes has its seal id and its fencing token, and a state that fits. -/
structure Matches (c : Closing) (fact : SealRequest) (r : Run) : Prop where
  row : c.lane.runs.get fact.run = some r
  owner : r.leaseId = some fact.writer
  sealId : r.outputSeal.map (·.factId) = some fact.factId
  token : c.fencingTokens fact.run = some fact.fencingToken
  state : r.outputSealedAt = true ∨ (fact.body = .recover ∧ r.state.active = true) ∨
    ∃ event, fact.body = .terminal event ∧ r.state = Lane.terminalState event

theorem Sound.matches (h : c.Sound) {fact : SealRequest} (hin : fact ∈ c.outbox) :
    (∃ r, c.Matches fact r) ∨ c.Gone fact := by
  refine (h.facts fact hin).imp_left fun ⟨r, hr, hlease, hseal, htoken⟩ => ?_
  have hs := h.kept.sealing fact.run r hr
  refine ⟨r, hr, hlease, by rw [hseal, Option.map_some], htoken, ?_⟩
  cases hbody : fact.body with
  | recover =>
    rw [hbody] at hseal
    exact (hs.recover _ hseal).imp id fun hactive => .inl ⟨rfl, hactive.1⟩
  | terminal event =>
    rw [hbody] at hseal
    exact .inr (.inr ⟨event, rfl, hs.terminal _ event hseal⟩)

end Closing

end Quarantine
end Runtime
end PiCloud
