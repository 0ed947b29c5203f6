import Mathlib.Data.List.Induction
import PiCloud.Lib.Run

/-!
# Supervisor.ToolReadiness

What a run does about tool calls whose outcome stays unknown: `prepareOperation` of
`trusted-remote-tools.ts` and `tool-execution-outcome.ts`.

* `Failure`, `Cause`: the failures, and what the promise of a reply rejects with.
* `State`: the calls of one run, the readiness checks, and the two variables all calls share.
* `failTransport`, `resume`: what a call does from one `await` to the next.
* `act`: the steps of the calls, of the checks and of their surroundings, in any order.
* `Checked`: a failure that is unknown was reported, or excused by a check of its binding.
-/

namespace PiCloud
namespace Supervisor
namespace Readiness

open Lib

/-! ## Failures -/

inductive Effect where
  | notStarted | unknown
deriving DecidableEq

/-- `ToolExecutionFailure` -/
structure Failure where
  code : String
  effect : Effect
deriving DecidableEq

def unavailableToolCodes : List String :=
  ["cubesandbox_tool_result_unknown", "cubesandbox_tool_unavailable",
    "tool_sandbox_identity_mismatch", "tool_command_executor_closed", "tool_command_sealed",
    "tool_operation_outcome_unknown", "stale_session_lease", "ownership_lost"]

def permitsReadinessCheck (f : Failure) : Bool :=
  f.effect = .unknown && (f.code = "tool_reply_timeout" || f.code = "tool_handoff_unconfirmed")

def blocksToolSampling (f : Failure) : Bool :=
  f.effect = .unknown || unavailableToolCodes.contains f.code

/-- What the promise of a reply rejects with: the reason of `replyDeadline`, a
`ToolExecutionFailure`, a `ToolResultAttachmentError`, or something else. -/
inductive Cause where
  | deadline
  | execution (f : Failure)
  | attachment
  | other
deriving DecidableEq

namespace Cause

def confirmsNoToolEffect : Cause → Bool
  | .execution f => f.effect = .notStarted
  | _ => false

def toolTransportFailure : Cause → Failure
  | .execution f => f
  | _ => { code := "tool_operation_outcome_unknown", effect := .unknown }

/-- Nothing tells what the tool did. An attachment that cannot be read belongs to a reply that was
received. -/
def EffectUnknown : Cause → Prop
  | .execution f => f.effect = .unknown
  | .attachment => False
  | .deadline | .other => True

end Cause

/-! ## Calls and checks -/

inductive Operation where
  | toolExecute | workflowExec
deriving DecidableEq

inductive Outcome where
  | returned
  /-- With the reason of the call's own signal, or with the failure if nothing was done. -/
  | aborted (confirmed : Bool)
  | attachment
  | failed (f : Failure)
  /-- With the error of `onToolOperationUnavailable`. -/
  | unreported
deriving DecidableEq

inductive Phase where
  /-- `await pending.result` -/
  | waiting
  /-- `await check.result` -/
  | checking (check : Nat) (f : Failure)
  /-- `await runtime.onToolOperationUnavailable(failure)` -/
  | reporting (f : Failure)
  | settled (o : Outcome)
deriving DecidableEq

/-- One `result()` of a prepared operation. `aborted` is that of the call's own signal, `passed` that
of its reply deadline, and `cause` what the promise of its reply rejected with. -/
structure Call where
  binding : Nat
  operation : Operation
  abortable : Bool
  aborted : Bool := false
  passed : Bool := false
  executionSettled : Bool := false
  cancellationUnconfirmed : Bool := false
  cause : Option Cause := none
  phase : Phase := .waiting
deriving DecidableEq

/-- A readiness check, with its answer once it has one. -/
structure Check where
  binding : Nat
  result : Option Bool := none
deriving DecidableEq

inductive Event where
  | started (check : Nat)
  | excused (call check : Nat)
  | reported (call : Nat) (f : Failure)
  | returned (call : Nat)
deriving DecidableEq

/-- `log` is what happened, oldest first. -/
structure State where
  calls : List Call := []
  checks : List Check := []
  readiness : Option Nat := none
  continuedAfterUnknown : Bool := false
  log : List Event := []
deriving DecidableEq

namespace State

def setCall (s : State) (i : Nat) (c : Call) : State := { s with calls := s.calls.set i c }

def note (s : State) (e : Event) : State := { s with log := s.log ++ [e] }

/-- A check of the binding, unless one is going on or the run has gone on after one. -/
def startCheck (s : State) (binding : Nat) : State :=
  if s.readiness = none ∧ s.continuedAfterUnknown = false then
    { s with
      continuedAfterUnknown := true
      readiness := some s.checks.length
      checks := s.checks ++ [{ binding }]
      log := s.log ++ [.started s.checks.length] }
  else s

/-- The check that is going on, if it is one of the binding. -/
def checkOf (s : State) (binding : Nat) : Option Nat :=
  match s.readiness with
  | none => none
  | some k =>
    match s.checks[k]? with
    | none => none
    | some check => if check.binding = binding then some k else none

/-- The last lines of `failTransport`. -/
def report (s : State) (i : Nat) (c : Call) (f : Failure) : State :=
  if blocksToolSampling f then
    (s.setCall i { c with phase := .reporting f }).note (.reported i f)
  else s.setCall i { c with phase := .settled (.failed f) }

/-- `failTransport`, up to where it first waits. `confirms` tells whether there is a
`confirmExecution`. -/
def failTransport (confirms : Bool) (s : State) (i : Nat) (c : Call) (cause : Cause) : State :=
  let c := { c with cause := some cause }
  if c.aborted then
    s.setCall i { c with
      cancellationUnconfirmed := c.cancellationUnconfirmed ||
        (!c.executionSettled && !cause.confirmsNoToolEffect)
      phase := .settled (.aborted cause.confirmsNoToolEffect) }
  else if cause = Cause.attachment then s.setCall i { c with phase := .settled .attachment }
  else
    let f : Failure :=
      if cause = .deadline ∧ c.passed then { code := "tool_reply_timeout", effect := .unknown }
      else cause.toolTransportFailure
    if c.operation = .toolExecute ∧ confirms ∧ permitsReadinessCheck f then
      let s := s.startCheck c.binding
      match s.checkOf c.binding with
      | some k => s.setCall i { c with phase := .checking k f }
      | none => s.report i c f
    else s.report i c f

/-- A call that has waited goes on. `broken` tells whether `onToolOperationUnavailable` failed. -/
def resume (s : State) (i : Nat) (c : Call) (broken : Bool) : Option State :=
  match c.phase with
  | .waiting | .settled _ => none
  | .checking k f => do
    let check ← s.checks[k]?
    let ready ← check.result
    if c.aborted then return s.setCall i { c with phase := .settled (.aborted false) }
    else if ready then
      return ({ s with continuedAfterUnknown := true }.setCall i
        { c with phase := .settled (.failed f) }).note (.excused i k)
    else return s.report i c f
  | .reporting f =>
    return s.setCall i { c with phase := .settled (if broken then .unreported else .failed f) }

end State

/-! ## Steps -/

inductive Action where
  | begin_ (binding : Nat) (operation : Operation) (abortable : Bool)
  | abort (i : Nat)
  | deadline (i : Nat)
  | executionSettled (i : Nat)
  | dispose (i : Nat)
  /-- The reply of a call arrives, or the promise of it rejects. -/
  | reply (i : Nat)
  | reject (i : Nat) (cause : Cause)
  | resume (i : Nat) (broken : Bool)
  /-- `confirmExecution` answers; a failure of it counts as no. -/
  | answer (check : Nat) (ready : Bool)
  /-- The `finally` of a check that has its answer. -/
  | clear (check : Nat)
deriving DecidableEq

def waitingCall (s : State) (i : Nat) : Option Call := do
  let c ← s.calls[i]?
  guard (c.phase = .waiting)
  return c

def act (confirms : Bool) (s : State) : Action → Option State
  | .begin_ binding operation abortable =>
    some { s with calls := s.calls ++ [{ binding, operation, abortable }] }
  | .abort i => do
    let c ← s.calls[i]?
    guard c.abortable
    return s.setCall i { c with aborted := true }
  | .deadline i => do
    let c ← s.calls[i]?
    return s.setCall i { c with passed := true }
  | .executionSettled i => do
    let c ← s.calls[i]?
    return s.setCall i { c with executionSettled := true }
  | .dispose i => do
    let c ← s.calls[i]?
    return s.setCall i { c with
      cancellationUnconfirmed := c.cancellationUnconfirmed || (c.aborted && !c.executionSettled) }
  | .reply i => do
    let c ← waitingCall s i
    let s := s.setCall i { c with phase := .settled .returned }
    return if c.operation = .toolExecute then
      { s with continuedAfterUnknown := false }.note (.returned i)
    else s
  | .reject i cause => do
    let c ← waitingCall s i
    return s.failTransport confirms i c cause
  | .resume i broken => do
    let c ← s.calls[i]?
    s.resume i c broken
  | .answer k ready => do
    let check ← s.checks[k]?
    guard (check.result = none)
    return { s with checks := s.checks.set k { check with result := some ready } }
  | .clear k => do
    let check ← s.checks[k]?
    guard (check.result ≠ none)
    return if s.readiness = some k then { s with readiness := none } else s

def run (confirms : Bool) : System State Action where
  init s := s = {}
  step s a t := act confirms s a = some t

/-! ## What holds in every run -/

def Reported (s : State) (i : Nat) : Prop := ∃ f, .reported i f ∈ s.log

def Excused (s : State) (i : Nat) (c : Call) : Prop :=
  ∃ k check, .excused i k ∈ s.log ∧ s.checks[k]? = some check ∧ check.binding = c.binding ∧
    check.result = some true

/-- No unknown outcome passes unnoticed, one check goes on at a time, and after one that excused a
failure the next one waits for a result. -/
structure Checked (s : State) : Prop where
  noticed : ∀ {i c o cause}, s.calls[i]? = some c → c.operation = .toolExecute →
    c.phase = .settled o → o ≠ .returned → c.cause = some cause → cause.EffectUnknown →
    c.aborted = false → Reported s i ∨ Excused s i c
  single : ∀ {k l : Nat} {a b : Check}, s.checks[k]? = some a → s.checks[l]? = some b →
    a.result = none → b.result = none → k = l
  once : ∀ {a b d : List Event} {i k l : Nat}, s.log = a ++ .excused i k :: b ++ .started l :: d →
    ∃ j, .returned j ∈ b

def Answered (s : State) (i : Nat) (c : Call) : Prop :=
  c.aborted = true ∨ (∀ cause, c.cause = some cause → ¬cause.EffectUnknown) ∨
    Reported s i ∨ Excused s i c

/-- What can be said of a call by where it stands. -/
def CallOk (s : State) (i : Nat) (c : Call) : Prop :=
  match c.phase with
  | .waiting => True
  | .checking k f => f.effect = .unknown ∧ ∃ check, s.checks[k]? = some check ∧
      check.binding = c.binding
  | .reporting _ => Reported s i
  | .settled o => o = .returned ∨ Answered s i c

/-- The run has gone on after each check that excused a failure, until a call has returned. -/
structure Ordered (continued : Bool) (log : List Event) : Prop where
  quiet : ∀ {a b : List Event} {i k : Nat}, log = a ++ .excused i k :: b →
    continued = true ∨ ∃ j, .returned j ∈ b
  once : ∀ {a b d : List Event} {i k l : Nat}, log = a ++ .excused i k :: b ++ .started l :: d →
    ∃ j, .returned j ∈ b

structure Inv (s : State) : Prop where
  calls : ∀ {i : Nat} {c : Call}, s.calls[i]? = some c → CallOk s i c
  going : ∀ {k : Nat} {check : Check}, s.checks[k]? = some check → check.result = none →
    s.readiness = some k
  ordered : Ordered s.continuedAfterUnknown s.log

theorem Inv.checked {s : State} (h : Inv s) : Checked s where
  noticed := by
    intro i c o cause hc _ hphase ho hcause heffect hab
    have hok := h.calls hc
    unfold CallOk at hok
    rw [hphase] at hok
    obtain h' | h' | h' := hok.resolve_left ho
    · rw [hab] at h'
      cases h'
    · exact absurd heffect (h' cause hcause)
    · exact h'
  single := by
    intro k l a b ha hb hra hrb
    exact Option.some.inj ((h.going ha hra).symm.trans (h.going hb hrb))
  once := h.ordered.once

/-! ### The log -/

theorem snoc_eq {α : Type} {log a b : List α} {e x : α} (h : log ++ [e] = a ++ x :: b) :
    (log = a ∧ e = x ∧ b = []) ∨ ∃ b', b = b' ++ [e] ∧ log = a ++ x :: b' := by
  cases b using List.reverseRecOn with
  | nil =>
    obtain ⟨h1, h2⟩ := List.append_inj' h rfl
    exact .inl ⟨h1, (List.cons.inj h2).1, rfl⟩
  | append_singleton b' y =>
    have h' : log ++ [e] = (a ++ x :: b') ++ [y] := by rw [h, List.append_assoc, List.cons_append]
    obtain ⟨h1, h2⟩ := List.append_inj' h' rfl
    obtain rfl := (List.cons.inj h2).1
    exact .inr ⟨b', rfl, h1⟩

theorem Ordered.snoc {continued continued' : Bool} {log : List Event} {e : Event}
    (h : Ordered continued log) (hexcused : ∀ i k, e = .excused i k → continued' = true)
    (hstarted : ∀ l, e = .started l → continued = false)
    (hkept : continued = true → continued' = true ∨ ∃ j, e = .returned j) :
    Ordered continued' (log ++ [e]) where
  quiet := by
    intro a b i k heq
    obtain ⟨-, he, -⟩ | ⟨b', rfl, hlog⟩ := snoc_eq heq
    · exact .inl (hexcused i k he)
    · obtain hcontinued | ⟨j, hj⟩ := h.quiet hlog
      · obtain h' | ⟨j, rfl⟩ := hkept hcontinued
        · exact .inl h'
        · exact .inr ⟨j, by simp⟩
      · exact .inr ⟨j, List.mem_append_left _ hj⟩
  once := by
    intro a b d i k l heq
    rw [List.append_assoc, List.cons_append] at heq
    obtain ⟨-, -, hnil⟩ | ⟨b', hb', hlog⟩ := snoc_eq heq
    · exact absurd hnil (by simp)
    obtain ⟨hlast, hle, hnil⟩ | ⟨d', rfl, hfront⟩ := snoc_eq (x := Event.started l) (a := b)
        (b := d) hb'.symm
    · -- the start is the last event: no result since would mean the run has not gone on
      rw [hlast] at hlog
      obtain hcontinued | hj := h.quiet hlog
      · rw [hstarted l hle] at hcontinued
        cases hcontinued
      · exact hj
    · rw [hfront, ← List.cons_append, ← List.append_assoc] at hlog
      exact h.once hlog

theorem Ordered.continued {continued : Bool} {log : List Event} (h : Ordered continued log) :
    Ordered true log where
  quiet _ := .inl rfl
  once := h.once

/-! ### Steps -/

/-- What happened stays, and a check keeps its binding and its answer. -/
structure Grows (s t : State) : Prop where
  log : ∀ e ∈ s.log, e ∈ t.log
  checks : ∀ {k : Nat} {check : Check}, s.checks[k]? = some check →
    ∃ check', t.checks[k]? = some check' ∧ check'.binding = check.binding ∧
      ∀ r, check.result = some r → check'.result = some r

theorem Grows.same {s t : State} (hlog : ∀ e ∈ s.log, e ∈ t.log) (hchecks : t.checks = s.checks) :
    Grows s t where
  log := hlog
  checks := by
    intro k check h
    exact ⟨check, hchecks ▸ h, rfl, fun _ hr => hr⟩

theorem CallOk.mono {s t : State} {i : Nat} {c : Call} (h : CallOk s i c) (hst : Grows s t) :
    CallOk t i c := by
  have hreported : Reported s i → Reported t i := fun ⟨f, hf⟩ => ⟨f, hst.log _ hf⟩
  have hexcused : Excused s i c → Excused t i c := by
    rintro ⟨k, check, hlog, hcheck, hbinding, hresult⟩
    obtain ⟨check', hcheck', hb, hr⟩ := hst.checks hcheck
    exact ⟨k, check', hst.log _ hlog, hcheck', hb.trans hbinding, hr _ hresult⟩
  unfold CallOk at h ⊢
  split
  · trivial
  · rename_i k f hphase
    rw [hphase] at h
    obtain ⟨hf, check, hcheck, hbinding⟩ := h
    obtain ⟨check', hcheck', hb, -⟩ := hst.checks hcheck
    exact ⟨hf, check', hcheck', hb.trans hbinding⟩
  · rename_i f hphase
    rw [hphase] at h
    exact hreported h
  · rename_i o hphase
    rw [hphase] at h
    exact h.imp_right (.imp_right (.imp_right (.imp hreported hexcused)))

theorem Inv.setCall {s t : State} (h : Inv s) {i : Nat} {c : Call} (hst : Grows s t)
    (hcalls : t.calls = s.calls.set i c) (hok : CallOk t i c)
    (hgoing : ∀ {k : Nat} {check : Check}, t.checks[k]? = some check → check.result = none →
      t.readiness = some k)
    (hordered : Ordered t.continuedAfterUnknown t.log) : Inv t where
  calls := by
    intro j d hd
    rw [hcalls, List.getElem?_set] at hd
    split at hd
    · rename_i hij
      split at hd
      · obtain rfl := Option.some.inj hd
        exact hij ▸ hok
      · cases hd
    · exact (h.calls hd).mono hst
  going := hgoing
  ordered := hordered

theorem Inv.adjust {s : State} (h : Inv s) {i : Nat} {c d : Call} (hc : s.calls[i]? = some c)
    (hphase : d.phase = c.phase) (hbinding : d.binding = c.binding) (hcause : d.cause = c.cause)
    (haborted : c.aborted = true → d.aborted = true) : Inv (s.setCall i d) := by
  have hok := h.calls hc
  refine h.setCall (.same (fun _ he => he) rfl) rfl ?_ h.going h.ordered
  have hexcused : Excused s i c → Excused (s.setCall i d) i d := by
    unfold Excused
    rw [hbinding]
    exact id
  unfold CallOk at hok ⊢
  rw [hphase]
  split
  · trivial
  · rename_i heq
    rw [heq] at hok
    exact hbinding ▸ hok
  · rename_i heq
    rw [heq] at hok
    exact hok
  · rename_i o heq
    rw [heq] at hok
    unfold Answered at hok ⊢
    rw [hcause]
    exact hok.imp_right (.imp haborted (.imp_right (.imp_right hexcused)))

theorem note_grows (s : State) (i : Nat) (c : Call) (e : Event) : Grows s ((s.setCall i c).note e) :=
  .same (fun _ he => List.mem_append_left _ he) rfl

theorem Inv.report {s : State} (h : Inv s) {i : Nat} {c : Call} {f : Failure}
    (hf : blocksToolSampling f = true ∨ ∀ cause, c.cause = some cause → ¬cause.EffectUnknown) :
    Inv (s.report i c f) := by
  unfold State.report
  split
  · refine h.setCall (note_grows s i _ _) rfl ?_ h.going ?_
    · exact ⟨f, by simp [State.note]⟩
    · exact h.ordered.snoc (fun _ _ he => by cases he) (fun _ he => by cases he) .inl
  · rename_i hno
    refine h.setCall (.same (fun _ he => he) rfl) rfl ?_ h.going h.ordered
    exact .inr (.inr (.inl (hf.resolve_left hno)))

theorem Inv.startCheck {s : State} (h : Inv s) (binding : Nat) : Inv (s.startCheck binding) := by
  unfold State.startCheck
  split
  · rename_i hstart
    have hgrows : Grows s { s with
        continuedAfterUnknown := true
        readiness := some s.checks.length
        checks := s.checks ++ [{ binding }]
        log := s.log ++ [.started s.checks.length] } := by
      refine ⟨fun _ he => List.mem_append_left _ he, ?_⟩
      intro k check hk
      refine ⟨check, ?_, rfl, fun _ hr => hr⟩
      dsimp only
      rw [List.getElem?_append_left (List.getElem?_eq_some_iff.mp hk).1]
      exact hk
    refine ⟨fun hc => (h.calls hc).mono hgrows, ?_, ?_⟩
    · intro k check hk hnone
      dsimp only at hk ⊢
      by_cases hlast : k < s.checks.length
      · rw [List.getElem?_append_left hlast] at hk
        have hgoing := h.going hk hnone
        rw [hstart.1] at hgoing
        cases hgoing
      · have hlt := (List.getElem?_eq_some_iff.mp hk).1
        rw [List.length_append, List.length_singleton] at hlt
        exact congrArg some (by omega)
    · exact h.ordered.snoc (fun _ _ he => by cases he) (fun _ _ => hstart.2) fun _ => .inl rfl
  · exact h

theorem checkOf_some {s : State} {binding k : Nat} (h : s.checkOf binding = some k) :
    ∃ check, s.checks[k]? = some check ∧ check.binding = binding := by
  unfold State.checkOf at h
  split at h
  · cases h
  · split at h
    · cases h
    · rename_i check hcheck
      split at h
      · rename_i hbinding
        obtain rfl := Option.some.inj h
        exact ⟨check, hcheck, hbinding⟩
      · cases h

theorem failure_unknown {cause : Cause} (h : cause.EffectUnknown) (passed : Bool) :
    (if cause = .deadline ∧ passed = true then
      ({ code := "tool_reply_timeout", effect := .unknown } : Failure)
      else cause.toolTransportFailure).effect = .unknown := by
  split
  · rfl
  · cases cause with
    | execution f => exact h
    | attachment => exact h.elim
    | deadline | other => rfl

theorem Inv.failTransport {s : State} (h : Inv s) (confirms : Bool) {i : Nat} {c : Call}
    (cause : Cause) : Inv (s.failTransport confirms i c cause) := by
  unfold State.failTransport
  dsimp only
  split
  · rename_i hab
    exact h.setCall (.same (fun _ he => he) rfl) rfl (.inr (.inl hab)) h.going h.ordered
  split
  · rename_i hatt
    refine h.setCall (.same (fun _ he => he) rfl) rfl (.inr (.inr (.inl ?_))) h.going h.ordered
    rintro _ ⟨⟩
    rw [hatt]
    exact id
  generalize hf : (if cause = .deadline ∧ c.passed = true then
      ({ code := "tool_reply_timeout", effect := .unknown } : Failure)
      else cause.toolTransportFailure) = f
  have hblocks : ∀ {d : Call}, d.cause = some cause →
      blocksToolSampling f = true ∨ ∀ cause, d.cause = some cause → ¬cause.EffectUnknown := by
    intro d hd
    by_cases hunknown : cause.EffectUnknown
    · left
      have heffect := failure_unknown hunknown c.passed
      rw [hf] at heffect
      simp [blocksToolSampling, heffect]
    · right
      intro cause' hcause'
      rw [hd] at hcause'
      obtain rfl := Option.some.inj hcause'
      exact hunknown
  split
  · rename_i hpermits
    have hstarted := h.startCheck c.binding
    split
    · rename_i k hk
      obtain ⟨check, hcheck, hbinding⟩ := checkOf_some hk
      refine hstarted.setCall (.same (fun _ he => he) rfl) rfl ?_ hstarted.going hstarted.ordered
      refine ⟨?_, check, hcheck, hbinding⟩
      have hperm := hpermits.2.2
      simp only [permitsReadinessCheck, Bool.and_eq_true, decide_eq_true_eq] at hperm
      exact hperm.1
    · exact hstarted.report (hblocks rfl)
  · exact h.report (hblocks rfl)

theorem Inv.resume {s t : State} (h : Inv s) {i : Nat} {c : Call} (hc : s.calls[i]? = some c)
    {broken : Bool} (hs : s.resume i c broken = some t) : Inv t := by
  have hok := h.calls hc
  unfold State.resume at hs
  unfold CallOk at hok
  split at hs
  · cases hs
  · cases hs
  · rename_i k f hphase
    rw [hphase] at hok
    obtain ⟨hf, check, hcheck, hbinding⟩ := hok
    obtain ⟨check', hcheck', hs⟩ := bind_some hs
    obtain rfl := Option.some.inj (hcheck.symm.trans hcheck')
    obtain ⟨ready, hready, hs⟩ := bind_some hs
    split at hs
    · rename_i hab
      obtain rfl := Option.some.inj hs
      exact h.setCall (.same (fun _ he => he) rfl) rfl (.inr (.inl hab)) h.going h.ordered
    split at hs
    · rename_i hyes
      obtain rfl := Option.some.inj hs
      refine h.setCall (.same (fun _ he => List.mem_append_left _ he) rfl) rfl ?_ h.going ?_
      · refine .inr (.inr (.inr (.inr ⟨k, check, ?_, hcheck, hbinding, hyes ▸ hready⟩)))
        simp [State.note]
      · exact h.ordered.continued.snoc (fun _ _ _ => rfl) (fun _ he => by cases he) .inl
    · obtain rfl := Option.some.inj hs
      exact h.report (.inl (by simp [blocksToolSampling, hf]))
  · rename_i f hphase
    rw [hphase] at hok
    obtain rfl := Option.some.inj hs
    refine h.setCall (.same (fun _ he => he) rfl) rfl ?_ h.going h.ordered
    exact .inr (.inr (.inr (.inl hok)))

theorem Inv.act {confirms : Bool} {s t : State} {a : Action} (h : Inv s)
    (hs : act confirms s a = some t) : Inv t := by
  cases a with
  | begin_ binding operation abortable =>
    obtain rfl := Option.some.inj hs
    refine ⟨?_, h.going, h.ordered⟩
    intro i c hc
    dsimp only at hc
    by_cases hi : i < s.calls.length
    · rw [List.getElem?_append_left hi] at hc
      exact (h.calls hc).mono (.same (fun _ he => he) rfl)
    · have hlt := (List.getElem?_eq_some_iff.mp hc).1
      rw [List.length_append, List.length_singleton] at hlt
      obtain rfl : i = s.calls.length := by omega
      rw [List.getElem?_concat_length] at hc
      obtain rfl := Option.some.inj hc
      trivial
  | abort i =>
    obtain ⟨c, hc, hs⟩ := bind_some hs
    obtain ⟨-, hs⟩ := guard_some hs
    obtain rfl := Option.some.inj hs
    exact h.adjust hc rfl rfl rfl fun _ => rfl
  | deadline i =>
    obtain ⟨c, hc, hs⟩ := bind_some hs
    obtain rfl := Option.some.inj hs
    exact h.adjust hc rfl rfl rfl id
  | executionSettled i =>
    obtain ⟨c, hc, hs⟩ := bind_some hs
    obtain rfl := Option.some.inj hs
    exact h.adjust hc rfl rfl rfl id
  | dispose i =>
    obtain ⟨c, hc, hs⟩ := bind_some hs
    obtain rfl := Option.some.inj hs
    exact h.adjust hc rfl rfl rfl id
  | reply i =>
    obtain ⟨c, hc, hs⟩ := bind_some hs
    obtain rfl := Option.some.inj hs
    split
    · refine h.setCall (.same (fun _ he => List.mem_append_left _ he) rfl) rfl (.inl rfl) h.going ?_
      exact h.ordered.snoc (fun _ _ he => by cases he) (fun _ he => by cases he)
        fun _ => .inr ⟨i, rfl⟩
    · exact h.setCall (.same (fun _ he => he) rfl) rfl (.inl rfl) h.going h.ordered
  | reject i cause =>
    obtain ⟨c, hc, hs⟩ := bind_some hs
    obtain rfl := Option.some.inj hs
    exact h.failTransport confirms cause
  | resume i broken =>
    obtain ⟨c, hc, hs⟩ := bind_some hs
    exact h.resume hc hs
  | answer k ready =>
    obtain ⟨check, hcheck, hs⟩ := bind_some hs
    obtain ⟨hnone, hs⟩ := guard_some hs
    obtain rfl := Option.some.inj hs
    have hgrows : Grows s
        { s with checks := s.checks.set k { check with result := some ready } } := by
      refine ⟨fun _ he => he, ?_⟩
      intro j other hj
      dsimp only
      rw [List.getElem?_set]
      split
      · rename_i hkj
        subst hkj
        obtain rfl := Option.some.inj (hcheck.symm.trans hj)
        rw [if_pos (List.getElem?_eq_some_iff.mp hcheck).1]
        refine ⟨_, rfl, rfl, fun r hr => ?_⟩
        rw [hnone] at hr
        cases hr
      · exact ⟨other, hj, rfl, fun _ hr => hr⟩
    refine ⟨fun hc => (h.calls hc).mono hgrows, ?_, h.ordered⟩
    intro j other hj hresult
    dsimp only at hj
    rw [List.getElem?_set] at hj
    split at hj
    · split at hj
      · obtain rfl := Option.some.inj hj
        cases hresult
      · cases hj
    · exact h.going hj hresult
  | clear k =>
    obtain ⟨check, hcheck, hs⟩ := bind_some hs
    obtain ⟨hsome, hs⟩ := guard_some hs
    obtain rfl := Option.some.inj hs
    split
    · rename_i hready
      refine ⟨fun hc => (h.calls hc).mono (.same (fun _ he => he) rfl), ?_, h.ordered⟩
      intro j other hj hresult
      have hgoing := h.going hj hresult
      rw [hready] at hgoing
      obtain rfl := Option.some.inj hgoing
      obtain rfl := Option.some.inj (hcheck.symm.trans hj)
      exact absurd hresult hsome
    · exact h

theorem Inv.init : Inv {} where
  calls hc := by cases hc
  going hk := by cases hk
  ordered :=
    { quiet := fun heq => absurd heq (by simp)
      once := fun heq => absurd heq (by simp) }

/-- Whatever the calls of a run, their replies, signals and checks do, in whatever order. -/
theorem run_checked {confirms : Bool} {as : List Action} {s : State}
    (h : Reach (run confirms) as s) : Checked s :=
  (h.invariant Inv (by rintro _ rfl; exact .init) fun _ _ _ hi hs => hi.act hs).checked

/-- Two calls of one binding share a check, a third one comes too late for another. -/
def sharedCheck : List Action :=
  [.begin_ 7 .toolExecute true, .begin_ 7 .toolExecute false, .begin_ 7 .toolExecute true,
    .deadline 0, .reject 0 .deadline, .reject 1 (.execution ⟨"tool_handoff_unconfirmed", .unknown⟩),
    .answer 0 true, .clear 0, .resume 0 false, .resume 1 false,
    .reject 2 (.execution ⟨"tool_handoff_unconfirmed", .unknown⟩), .resume 2 false]

theorem run_checked_shared : ∃ s, Reach (run true) sharedCheck s ∧ Checked s ∧
    s.log = [.started 0, .excused 0 0, .excused 1 0,
      .reported 2 ⟨"tool_handoff_unconfirmed", .unknown⟩] := by
  obtain ⟨s, hs⟩ : ∃ s, sharedCheck.foldlM (act true) {} = some s := ⟨_, rfl⟩
  have hrun := (Reach.init rfl).foldlM (S := run true) (fun _ _ _ h => h) _ hs
  refine ⟨s, hrun, run_checked hrun, ?_⟩
  have hlog : (sharedCheck.foldlM (act true) {}).map State.log = some [.started 0, .excused 0 0,
      .excused 1 0, .reported 2 ⟨"tool_handoff_unconfirmed", .unknown⟩] := by decide +kernel
  rw [hs] at hlog
  exact Option.some.inj hlog

end Readiness
end Supervisor
end PiCloud
