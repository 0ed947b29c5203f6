import Mathlib
import PiCloud.Lib.Run
import PiCloud.Lib.Utf16

/-!
# Runtime.WorkerExecutionLog

The log of one execution in `worker-execution-log.ts`: native commits, display facts, probes and
keepalives behind one promise `tail`, the fact that ends the work, and the budget they share.

* `WorkerLog.act`: a call, a callback of the event loop, or an answer of the bus.
* `Inv`: the callbacks run in the order of admission, and the counters count what is in flight.
* `worker_log`: what is handed to the bus, and when the log is poisoned.
-/

namespace PiCloud
namespace Runtime

open Lib

inductive CandidateKind where
  | durableCommit | agentEvent | pathProbe | runtimeKeepalive
deriving DecidableEq

def CandidateKind.semantic : CandidateKind → Bool
  | .pathProbe | .runtimeKeepalive => false
  | _ => true

/-- A prepared fact, and the bytes of its envelope. -/
structure LogEntry where
  id : Nat
  kind : CandidateKind
  bytes : Nat
deriving DecidableEq

/-- A call of `bus.append`. -/
inductive HandedFact where
  | fact (entry : LogEntry)
  | workFinished
deriving DecidableEq

/-- How `bus.append` ends. -/
inductive AppendEnd where
  | durable
  /-- the receipt is not durable, or it is another fact's -/
  | mismatched
  /-- `PublicationNotSentError` -/
  | notSent
  | error
deriving DecidableEq

def AppendEnd.uncertain : AppendEnd → Bool
  | .mismatched | .error => true
  | _ => false

/-- `finish`, from its `drain` on. `awaited` is the tail that `drain` read. -/
inductive Finishing where
  | draining (awaited : Option Nat)
  | drained
  | appending
  | ended (ok : Bool)
deriving DecidableEq

def Finishing.past : Finishing → Bool
  | .draining _ => false
  | _ => true

structure ProducerCapacity where
  maximumPendingFacts : Nat
  maximumPendingBytes : Nat

/-- A promise is named by the fact whose end resolves it; `none` is a resolved one. -/
structure WorkerLog where
  queuedFacts : Nat := 0
  queuedBytes : Nat := 0
  failed : Bool := false
  closing : Bool := false
  published : Bool := false
  tail : Option Nat := none
  /-- callbacks of resolved promises, in the order in which the event loop runs them -/
  jobs : List LogEntry := []
  /-- callbacks of promises that are not resolved -/
  waiting : List (Nat × LogEntry) := []
  /-- facts with the bus -/
  flying : List LogEntry := []
  /-- facts whose callback has ended, before `finally` -/
  ended : List LogEntry := []
  /-- the outcome that `finish` was called with, as text -/
  finishing : Option (JsString × Finishing) := none
  next : Nat := 0
  admitted : List LogEntry := []
  /-- the callbacks that have run -/
  ran : List LogEntry := []
  handed : List HandedFact := []
deriving DecidableEq

inductive LogAction where
  /-- `bytes` is missing when the fact could not be prepared -/
  | commitNative (bytes : Option Nat)
  | ingest (bytes : Option Nat)
  | probe (bytes : Option Nat)
  | keepalive (bytes : Option Nat)
  | finish (terminal : JsString)
  | close
  | producerFailed
  | run
  | answer (entry : LogEntry) (result : AppendEnd)
  | release (entry : LogEntry)
  | drained
  | appendFinished (attached : Bool)
  | finishAnswered (result : AppendEnd)
deriving DecidableEq

def HandedFact.entry : HandedFact → Option LogEntry
  | .fact e => some e
  | .workFinished => none

namespace WorkerLog

/-- `tail.then(…)` for a new fact, which becomes the tail unless it is a probe. -/
def enqueue (s : WorkerLog) (kind : CandidateKind) (bytes : Nat) : WorkerLog :=
  let entry : LogEntry := { id := s.next, kind, bytes }
  { s with
    queuedFacts := s.queuedFacts + 1
    queuedBytes := s.queuedBytes + bytes
    next := s.next + 1
    admitted := s.admitted ++ [entry]
    jobs := if s.tail = none then s.jobs ++ [entry] else s.jobs
    waiting := match s.tail with
      | some key => s.waiting ++ [(key, entry)]
      | none => s.waiting
    tail := if kind.semantic then some s.next else s.tail }

def publish (capacity : ProducerCapacity) (s : WorkerLog) (kind : CandidateKind)
    (bytes : Option Nat) : WorkerLog :=
  match bytes with
  | none => s
  | some bytes =>
    if s.failed = true ∨ s.closing = true then s
    else if s.queuedFacts ≥ capacity.maximumPendingFacts ∨
        s.queuedBytes + bytes > capacity.maximumPendingBytes then s
    else s.enqueue kind bytes

/-- `send` and `retain` -/
def observe (capacity : ProducerCapacity) (s : WorkerLog) (kind : CandidateKind)
    (bytes : Option Nat) : WorkerLog :=
  if s.closing = true ∨ s.failed = true ∨ s.published = false then s
  else publish capacity s kind bytes

/-- The callback of `tail.then`, up to the call of the bus. -/
def run (s : WorkerLog) (entry : LogEntry) : WorkerLog :=
  let s := { s with ran := s.ran ++ [entry] }
  if (entry.kind.semantic = false ∧ s.closing = true) ∨ s.failed = true then
    { s with ended := s.ended ++ [entry] }
  else { s with flying := s.flying ++ [entry], handed := s.handed ++ [HandedFact.fact entry] }

/-- The rest of the callback, and `catch`. -/
def answer (s : WorkerLog) (entry : LogEntry) (result : AppendEnd) : WorkerLog :=
  { s with
    flying := s.flying.erase entry
    ended := s.ended ++ [entry]
    failed := s.failed || result.uncertain
    published := s.published || (entry.kind.semantic && decide (result = .durable)) }

/-- `finally`; the end of a semantic fact resolves its promise. -/
def release (s : WorkerLog) (entry : LogEntry) : WorkerLog :=
  let s := { s with
    ended := s.ended.erase entry
    queuedFacts := s.queuedFacts - 1
    queuedBytes := s.queuedBytes - entry.bytes }
  if entry.kind.semantic then
    { s with
      jobs := s.jobs ++ (s.waiting.filter (·.1 = entry.id)).map Prod.snd
      waiting := s.waiting.filter (·.1 ≠ entry.id)
      tail := if s.tail = some entry.id then none else s.tail }
  else s

def finish (s : WorkerLog) (terminal : JsString) : WorkerLog :=
  match s.finishing with
  | some _ => s
  | none => { s with closing := true, finishing := some (terminal, .draining s.tail) }

def act (capacity : ProducerCapacity) (s : WorkerLog) : LogAction → Option WorkerLog
  | .commitNative bytes => some (publish capacity s .durableCommit bytes)
  | .ingest bytes => some (publish capacity s .agentEvent bytes)
  | .probe bytes => some (observe capacity s .pathProbe bytes)
  | .keepalive bytes => some (observe capacity s .runtimeKeepalive bytes)
  | .finish terminal => some (s.finish terminal)
  | .close => some { s with closing := true }
  | .producerFailed => some { s with failed := true }
  | .run =>
    match s.jobs with
    | entry :: jobs => some ({ s with jobs }.run entry)
    | [] => none
  | .answer entry result => if entry ∈ s.flying then some (s.answer entry result) else none
  | .release entry => if entry ∈ s.ended then some (s.release entry) else none
  | .drained =>
    match s.finishing with
    | some (terminal, .draining awaited) =>
      if awaited = none ∨ s.tail ≠ awaited then
        some { s with finishing := some (terminal, if s.failed then .ended false else .drained) }
      else none
    | _ => none
  | .appendFinished attached =>
    match s.finishing with
    | some (terminal, .drained) =>
      if attached then some { s with finishing := some (terminal, .ended false) }
      else some { s with
        finishing := some (terminal, .appending)
        handed := s.handed ++ [.workFinished] }
    | _ => none
  | .finishAnswered result =>
    match s.finishing with
    | some (terminal, .appending) =>
      if result = .durable then some { s with finishing := some (terminal, .ended true) }
      else some { s with failed := true, finishing := some (terminal, .ended false) }
    | _ => none

def system (capacity : ProducerCapacity) : System WorkerLog LogAction where
  init s := s = {}
  step s a t := act capacity s a = some t

def busy (s : WorkerLog) : List LogEntry := s.jobs ++ s.flying ++ s.ended

def inFlight (s : WorkerLog) : List LogEntry := s.busy ++ s.waiting.map Prod.snd

/-! ## What an action does -/

/-- The states that an action leads to. -/
inductive Effect (capacity : ProducerCapacity) (s : WorkerLog) : LogAction → WorkerLog → Prop where
  | refused (a : LogAction) : Effect capacity s a s
  | enqueued (a : LogAction) (kind : CandidateKind) (bytes : Nat) :
    s.failed = false → s.closing = false → s.queuedFacts < capacity.maximumPendingFacts →
    s.queuedBytes + bytes ≤ capacity.maximumPendingBytes →
    Effect capacity s a (s.enqueue kind bytes)
  | asked (terminal : JsString) : s.finishing = none →
    Effect capacity s (.finish terminal)
      { s with closing := true, finishing := some (terminal, .draining s.tail) }
  | closed : Effect capacity s .close { s with closing := true }
  | stopped : Effect capacity s .producerFailed { s with failed := true }
  | ran (entry : LogEntry) (jobs : List LogEntry) : s.jobs = entry :: jobs →
    Effect capacity s .run ({ s with jobs }.run entry)
  | answered (entry : LogEntry) (result : AppendEnd) : entry ∈ s.flying →
    Effect capacity s (.answer entry result) (s.answer entry result)
  | released (entry : LogEntry) : entry ∈ s.ended →
    Effect capacity s (.release entry) (s.release entry)
  | drained (terminal : JsString) (awaited : Option Nat) :
    s.finishing = some (terminal, .draining awaited) → awaited = none ∨ s.tail ≠ awaited →
    Effect capacity s .drained
      { s with finishing := some (terminal, if s.failed then .ended false else .drained) }
  | attached (terminal : JsString) : s.finishing = some (terminal, .drained) →
    Effect capacity s (.appendFinished true) { s with finishing := some (terminal, .ended false) }
  | work (terminal : JsString) : s.finishing = some (terminal, .drained) →
    Effect capacity s (.appendFinished false)
      { s with finishing := some (terminal, .appending), handed := s.handed ++ [.workFinished] }
  | finished (terminal : JsString) : s.finishing = some (terminal, .appending) →
    Effect capacity s (.finishAnswered .durable) { s with finishing := some (terminal, .ended true) }
  | unconfirmed (terminal : JsString) (result : AppendEnd) : result ≠ .durable →
    s.finishing = some (terminal, .appending) →
    Effect capacity s (.finishAnswered result)
      { s with failed := true, finishing := some (terminal, .ended false) }

theorem publish_effect (capacity : ProducerCapacity) (s : WorkerLog) (a : LogAction)
    (kind : CandidateKind) (bytes : Option Nat) :
    Effect capacity s a (publish capacity s kind bytes) := by
  unfold publish
  split
  · exact .refused a
  split
  · exact .refused a
  rename_i hopen
  split
  · exact .refused a
  · rename_i hroom
    simp only [not_or, Bool.not_eq_true] at hopen
    simp only [not_or, Nat.not_le, Nat.not_lt] at hroom
    exact .enqueued a kind _ hopen.1 hopen.2 hroom.1 hroom.2

theorem observe_effect (capacity : ProducerCapacity) (s : WorkerLog) (a : LogAction)
    (kind : CandidateKind) (bytes : Option Nat) :
    Effect capacity s a (observe capacity s kind bytes) := by
  unfold observe
  split
  · exact .refused a
  · exact publish_effect capacity s a kind bytes

theorem act_effect {capacity : ProducerCapacity} {s t : WorkerLog} {a : LogAction}
    (hact : act capacity s a = some t) : Effect capacity s a t := by
  cases a <;> simp only [act] at hact
  case commitNative bytes =>
    cases hact
    exact publish_effect capacity s _ _ bytes
  case ingest bytes =>
    cases hact
    exact publish_effect capacity s _ _ bytes
  case probe bytes =>
    cases hact
    exact observe_effect capacity s _ _ bytes
  case keepalive bytes =>
    cases hact
    exact observe_effect capacity s _ _ bytes
  case finish terminal =>
    cases hact
    unfold finish
    split
    · exact .refused _
    · rename_i hnone
      exact .asked terminal hnone
  case close =>
    cases hact
    exact .closed
  case producerFailed =>
    cases hact
    exact .stopped
  case run =>
    split at hact
    · rename_i entry jobs hs
      cases hact
      exact .ran entry jobs hs
    · cases hact
  case answer entry result =>
    obtain ⟨hs, rfl⟩ := ite_some hact
    exact .answered entry result hs
  case release entry =>
    obtain ⟨hs, rfl⟩ := ite_some hact
    exact .released entry hs
  case drained =>
    split at hact
    · rename_i terminal awaited hs
      obtain ⟨hresolved, rfl⟩ := ite_some hact
      exact .drained terminal awaited hs hresolved
    · cases hact
  case appendFinished attached =>
    split at hact
    · rename_i terminal hs
      cases attached with
      | true =>
        cases hact
        exact .attached terminal hs
      | false =>
        cases hact
        exact .work terminal hs
    · cases hact
  case finishAnswered result =>
    split at hact
    · rename_i terminal hs
      split at hact
      · rename_i hdurable
        cases hact
        subst hdurable
        exact .finished terminal hs
      · rename_i hno
        cases hact
        exact .unconfirmed terminal result hno hs
    · cases hact

/-! ## The promises that facts wait for -/

/-- Every fact waits for the last semantic one before it, the first ones for `key`. -/
def Chained : Nat → List (Nat × LogEntry) → Prop
  | _, [] => True
  | key, (k, e) :: waiting => k = key ∧ Chained (if e.kind.semantic then e.id else key) waiting

def lastKey : Nat → List (Nat × LogEntry) → Nat
  | key, [] => key
  | key, (_, e) :: waiting => lastKey (if e.kind.semantic then e.id else key) waiting

theorem chained_concat (key : Nat) (waiting : List (Nat × LogEntry)) (e : LogEntry)
    (h : Chained key waiting) : Chained key (waiting ++ [(lastKey key waiting, e)]) ∧
      lastKey key (waiting ++ [(lastKey key waiting, e)]) =
        if e.kind.semantic then e.id else lastKey key waiting := by
  induction waiting generalizing key with
  | nil => exact ⟨⟨rfl, trivial⟩, rfl⟩
  | cons x waiting ih =>
    obtain ⟨k, f⟩ := x
    obtain ⟨hk, hrest⟩ := h
    obtain ⟨hchained, hlast⟩ := ih _ hrest
    exact ⟨⟨hk, hchained⟩, hlast⟩

theorem chained_key_ne {key old : Nat} (hne : key ≠ old) {waiting : List (Nat × LogEntry)}
    (h : Chained key waiting) (hold : ∀ x ∈ waiting, x.2.id ≠ old) : ∀ x ∈ waiting, x.1 ≠ old := by
  induction waiting generalizing key with
  | nil => nofun
  | cons x waiting ih =>
    obtain ⟨k, f⟩ := x
    obtain ⟨rfl, hrest⟩ := h
    rw [List.forall_mem_cons] at hold ⊢
    refine ⟨hne, ih ?_ hrest hold.2⟩
    split
    · exact hold.1
    · exact hne

theorem lastKey_ne {key old : Nat} (hne : key ≠ old) {waiting : List (Nat × LogEntry)}
    (hold : ∀ x ∈ waiting, x.2.id ≠ old) : lastKey key waiting ≠ old := by
  induction waiting generalizing key with
  | nil => exact hne
  | cons x waiting ih =>
    rw [List.forall_mem_cons] at hold
    refine ih ?_ hold.2
    split
    · exact hold.1
    · exact hne

/-- What the end of the fact `key` sets free: the facts up to the next semantic one. -/
theorem chained_release {key : Nat} {waiting : List (Nat × LogEntry)} (h : Chained key waiting)
    (hkey : ∀ x ∈ waiting, x.2.id ≠ key) :
    waiting = waiting.filter (·.1 = key) ++ waiting.filter (·.1 ≠ key) ∧
      ((waiting.filter (·.1 ≠ key) = [] ∧ (∀ x ∈ waiting.filter (·.1 = key), x.2.kind.semantic = false) ∧
          lastKey key waiting = key) ∨
        ∃ f : LogEntry, f ∈ (waiting.filter (·.1 = key)).map Prod.snd ∧ f.kind.semantic = true ∧
          (∀ x ∈ waiting.filter (·.1 = key), x.2.kind.semantic = true → x.2 = f) ∧
          Chained f.id (waiting.filter (·.1 ≠ key)) ∧
          lastKey key waiting = lastKey f.id (waiting.filter (·.1 ≠ key))) := by
  induction waiting with
  | nil => exact ⟨rfl, .inl ⟨rfl, by simp, rfl⟩⟩
  | cons x waiting ih =>
    obtain ⟨k, e⟩ := x
    obtain ⟨rfl, hrest⟩ := h
    rw [List.forall_mem_cons] at hkey
    by_cases hsem : e.kind.semantic = true
    · rw [if_pos hsem] at hrest
      have hne := chained_key_ne hkey.1 hrest hkey.2
      have hnil : waiting.filter (·.1 = k) = [] := by
        simpa [List.filter_eq_nil_iff] using fun a b hx => hne (a, b) hx
      have hall : waiting.filter (·.1 ≠ k) = waiting := by
        simpa [List.filter_eq_self] using fun a b hx => hne (a, b) hx
      rw [List.filter_cons_of_pos (by simp), List.filter_cons_of_neg (by simp), hnil, hall]
      refine ⟨rfl, .inr ⟨e, by simp, hsem, ?_, hrest, ?_⟩⟩
      · simp
      · simp [lastKey, hsem]
    · rw [if_neg hsem] at hrest
      obtain ⟨hsplit, hcases⟩ := ih hrest hkey.2
      rw [List.filter_cons_of_pos (by simp), List.filter_cons_of_neg (by simp)]
      refine ⟨by rw [List.cons_append, ← hsplit], ?_⟩
      have hlast : lastKey k ((k, e) :: waiting) = lastKey k waiting := by simp [lastKey, hsem]
      rw [hlast]
      rcases hcases with ⟨hnil, hprobes, hk⟩ | ⟨f, hmem, hf, hunique, hchained, hk⟩
      · refine .inl ⟨hnil, ?_, hk⟩
        rw [List.forall_mem_cons]
        exact ⟨by simpa using hsem, hprobes⟩
      · refine .inr ⟨f, List.mem_cons_of_mem _ hmem, hf, ?_, hchained, hk⟩
        rw [List.forall_mem_cons]
        exact ⟨fun he => absurd he hsem, hunique⟩

/-! ## The invariant -/

/-- At most one semantic fact is on its way, and every other one waits behind it. -/
def TailInv (busy : List LogEntry) (waiting : List (Nat × LogEntry)) (tail : Option Nat) : Prop :=
  (waiting = [] ∧ tail = none ∧ ∀ e ∈ busy, e.kind.semantic = false) ∨
    ∃ e ∈ busy, e.kind.semantic = true ∧ (∀ f ∈ busy, f.kind.semantic = true → f = e) ∧
      Chained e.id waiting ∧ tail = some (lastKey e.id waiting)

structure Inv (s : WorkerLog) : Prop where
  line : s.ran ++ (s.jobs ++ s.waiting.map Prod.snd) = s.admitted
  ids : s.admitted.map LogEntry.id = List.range s.next
  handed : (s.handed.filterMap HandedFact.entry).Sublist s.ran
  once : (s.inFlight.map LogEntry.id).Nodup ∧ ∀ e ∈ s.inFlight, e.id < s.next
  facts : s.queuedFacts = s.inFlight.length
  bytes : s.queuedBytes = (s.inFlight.map LogEntry.bytes).sum
  tail : TailInv s.busy s.waiting s.tail

theorem TailInv.perm {busy busy' : List LogEntry} {waiting : List (Nat × LogEntry)}
    {tail : Option Nat} (h : TailInv busy waiting tail) (hperm : busy'.Perm busy) :
    TailInv busy' waiting tail := by
  rcases h with ⟨hw, ht, hall⟩ | ⟨e, he, hsem, hunique, hchained, ht⟩
  · exact .inl ⟨hw, ht, fun f hf => hall f (hperm.subset hf)⟩
  · exact .inr ⟨e, hperm.symm.subset he, hsem, fun f hf => hunique f (hperm.subset hf), hchained, ht⟩

theorem TailInv.waiting_nil {busy : List LogEntry} {waiting : List (Nat × LogEntry)}
    (h : TailInv busy waiting none) : waiting = [] ∧ ∀ e ∈ busy, e.kind.semantic = false := by
  rcases h with ⟨hw, -, hall⟩ | ⟨e, -, -, -, -, ht⟩
  · exact ⟨hw, hall⟩
  · cases ht

theorem Inv.moved {s t : WorkerLog} (h : Inv s) (hperm : t.busy.Perm s.busy)
    (hsame : (t.waiting, t.tail, t.next, t.admitted, t.queuedFacts, t.queuedBytes) =
      (s.waiting, s.tail, s.next, s.admitted, s.queuedFacts, s.queuedBytes))
    (hline : t.ran ++ t.jobs = s.ran ++ s.jobs)
    (hhanded : (t.handed.filterMap HandedFact.entry).Sublist t.ran) : Inv t := by
  simp only [Prod.mk.injEq] at hsame
  obtain ⟨h1, h2, h3, h4, h5, h6⟩ := hsame
  have hflight : t.inFlight.Perm s.inFlight := by
    unfold inFlight
    rw [h1]
    exact hperm.append_right _
  refine ⟨?_, ?_, hhanded, ⟨?_, ?_⟩, ?_, ?_, ?_⟩
  · rw [h1, h4, ← List.append_assoc, hline, List.append_assoc]
    exact h.line
  · rw [h3, h4]
    exact h.ids
  · exact (hflight.map LogEntry.id).nodup_iff.mpr h.once.1
  · intro e he
    rw [h3]
    exact h.once.2 e (hflight.subset he)
  · rw [h5, hflight.length_eq]
    exact h.facts
  · rw [h6, (hflight.map LogEntry.bytes).sum_eq]
    exact h.bytes
  · rw [h1, h2]
    exact h.tail.perm hperm

theorem Inv.enqueue {s : WorkerLog} (h : Inv s) (kind : CandidateKind) (bytes : Nat) :
    Inv (s.enqueue kind bytes) := by
  have hfresh : s.next ∉ s.inFlight.map LogEntry.id := by
    intro hmem
    obtain ⟨e, he, hid⟩ := List.mem_map.mp hmem
    exact absurd (h.once.2 e he) (by omega)
  have hinsert : (s.enqueue kind bytes).inFlight.Perm
      ({ id := s.next, kind, bytes } :: s.inFlight) := by
    cases ht : s.tail with
    | none =>
      simp only [WorkerLog.enqueue, inFlight, busy, ht, if_true, List.append_assoc]
      exact List.perm_middle
    | some key =>
      simp only [WorkerLog.enqueue, inFlight, busy, ht, List.map_append, List.map_cons,
        List.map_nil, ← List.append_assoc]
      exact List.perm_append_singleton _ _
  refine ⟨?_, ?_, h.handed, ⟨?_, ?_⟩, ?_, ?_, ?_⟩
  · have hline := h.line
    cases ht : s.tail with
    | none =>
      have hw := (TailInv.waiting_nil (ht ▸ h.tail)).1
      simp only [hw, List.map_nil, List.append_nil] at hline
      simp only [WorkerLog.enqueue, ht, hw, if_true, List.map_nil, List.append_nil,
        ← List.append_assoc, hline]
    | some key =>
      simp only [WorkerLog.enqueue, ht, List.map_append, List.map_cons, List.map_nil,
        ← List.append_assoc] at hline ⊢
      simp [hline]
  · simp only [WorkerLog.enqueue, List.map_append, List.map_cons, List.map_nil, h.ids,
      List.range_succ]
  · rw [(hinsert.map LogEntry.id).nodup_iff, List.map_cons, List.nodup_cons]
    exact ⟨hfresh, h.once.1⟩
  · intro e he
    have hnext : (s.enqueue kind bytes).next = s.next + 1 := rfl
    rw [hnext]
    rcases List.mem_cons.mp (hinsert.subset he) with rfl | he
    · simp
    · exact Nat.lt_succ_of_lt (h.once.2 e he)
  · have hfacts : (s.enqueue kind bytes).queuedFacts = s.queuedFacts + 1 := rfl
    rw [hfacts, hinsert.length_eq, List.length_cons, h.facts]
  · have hbytes : (s.enqueue kind bytes).queuedBytes = s.queuedBytes + bytes := rfl
    rw [hbytes, (hinsert.map LogEntry.bytes).sum_eq, List.map_cons, List.sum_cons, h.bytes]
    exact Nat.add_comm _ _
  · cases ht : s.tail with
    | none =>
      obtain ⟨hw, hall⟩ := TailInv.waiting_nil (ht ▸ h.tail)
      have hbusy : (s.enqueue kind bytes).busy =
          s.jobs ++ [{ id := s.next, kind, bytes }] ++ s.flying ++ s.ended := by
        simp [WorkerLog.enqueue, busy, ht]
      have hwaiting : (s.enqueue kind bytes).waiting = [] := by
        simp [WorkerLog.enqueue, ht, hw]
      have hrest : ∀ f : LogEntry, f ∈ s.jobs ++ [{ id := s.next, kind, bytes }] ++ s.flying ++ s.ended →
          f = { id := s.next, kind, bytes } ∨ f.kind.semantic = false := by
        intro f hf
        simp only [List.mem_append, List.mem_singleton] at hf
        rcases hf with ((hf | hf) | hf) | hf
        · exact .inr (hall f (by simp [busy, hf]))
        · exact .inl hf
        · exact .inr (hall f (by simp [busy, hf]))
        · exact .inr (hall f (by simp [busy, hf]))
      rw [hbusy, hwaiting]
      by_cases hsem : kind.semantic = true
      · refine .inr ⟨{ id := s.next, kind, bytes }, by simp, hsem, ?_, trivial, ?_⟩
        · intro f hf hfsem
          rcases hrest f hf with hf | hf
          · exact hf
          · rw [hf] at hfsem
            cases hfsem
        · simp [WorkerLog.enqueue, hsem, lastKey]
      · refine .inl ⟨rfl, by simp [WorkerLog.enqueue, hsem, ht], ?_⟩
        intro f hf
        rcases hrest f hf with rfl | hf
        · simpa using hsem
        · exact hf
    | some key =>
      rcases h.tail with ⟨-, hnone, -⟩ | ⟨e, he, hsem, hunique, hchained, htail⟩
      · rw [ht] at hnone
        cases hnone
      rw [ht] at htail
      cases htail
      obtain ⟨hchained', hlast⟩ := chained_concat e.id s.waiting { id := s.next, kind, bytes } hchained
      have hbusy : (s.enqueue kind bytes).busy = s.busy := by
        simp [WorkerLog.enqueue, busy, ht]
      have hwaiting : (s.enqueue kind bytes).waiting =
          s.waiting ++ [(lastKey e.id s.waiting, { id := s.next, kind, bytes })] := by
        simp [WorkerLog.enqueue, ht]
      rw [hbusy, hwaiting]
      refine .inr ⟨e, he, hsem, hunique, hchained', ?_⟩
      rw [hlast]
      simp only [WorkerLog.enqueue, ht]
      split <;> rfl

theorem Inv.run {s : WorkerLog} (h : Inv s) (entry : LogEntry) (jobs : List LogEntry)
    (hs : s.jobs = entry :: jobs) : Inv ({ s with jobs }.run entry) := by
  have hran : s.ran ++ [entry] ++ jobs = s.ran ++ s.jobs := by
    rw [hs, List.append_assoc]
    rfl
  simp only [WorkerLog.run]
  split
  · refine h.moved ?_ rfl hran ?_
    · simp only [busy, hs, ← List.append_assoc]
      exact List.perm_append_singleton _ _
    · exact h.handed.trans (List.sublist_append_left _ _)
  · refine h.moved ?_ rfl hran ?_
    · simp only [busy, hs, List.append_assoc, List.cons_append, List.nil_append]
      rw [← List.append_assoc]
      refine List.perm_middle.trans ?_
      rw [List.append_assoc]
    · rw [List.filterMap_append]
      exact h.handed.append (List.Sublist.refl _)

theorem Inv.answer {s : WorkerLog} (h : Inv s) (entry : LogEntry) (hs : entry ∈ s.flying)
    (result : AppendEnd) : Inv (s.answer entry result) := by
  refine h.moved ?_ rfl rfl h.handed
  have hflying : (s.flying.erase entry ++ (s.ended ++ [entry])).Perm (s.flying ++ s.ended) := by
    rw [← List.append_assoc]
    refine (List.perm_append_singleton _ _).trans ?_
    rw [← List.cons_append]
    exact (List.perm_cons_erase hs).symm.append_right _
  simp only [WorkerLog.answer, busy, List.append_assoc]
  exact hflying.append_left _

theorem Inv.release {s : WorkerLog} (h : Inv s) (entry : LogEntry) (hs : entry ∈ s.ended) :
    Inv (s.release entry) := by
  have hended : s.ended.Perm (entry :: s.ended.erase entry) := List.perm_cons_erase hs
  have hbusy : s.busy.Perm (entry :: (s.jobs ++ s.flying ++ s.ended.erase entry)) := by
    unfold busy
    exact (hended.append_left _).trans List.perm_middle
  have hflight : s.inFlight.Perm
      (entry :: (s.jobs ++ s.flying ++ s.ended.erase entry ++ s.waiting.map Prod.snd)) :=
    hbusy.append_right _
  have hfacts := h.facts
  have hbytes := h.bytes
  rw [hflight.length_eq, List.length_cons] at hfacts
  rw [(hflight.map LogEntry.bytes).sum_eq, List.map_cons, List.sum_cons] at hbytes
  have honce := (hflight.map LogEntry.id).nodup_iff.mp h.once.1
  rw [List.map_cons, List.nodup_cons] at honce
  have hbound : ∀ e ∈ s.jobs ++ s.flying ++ s.ended.erase entry ++ s.waiting.map Prod.snd,
      e.id < s.next := fun e he => h.once.2 e (hflight.symm.subset (List.mem_cons_of_mem _ he))
  by_cases hsem : entry.kind.semantic = true
  · obtain ⟨e, he, hesem, hunique, hchained, htail⟩ : ∃ e ∈ s.busy, e.kind.semantic = true ∧
        (∀ f ∈ s.busy, f.kind.semantic = true → f = e) ∧ Chained e.id s.waiting ∧
        s.tail = some (lastKey e.id s.waiting) := by
      rcases h.tail with ⟨-, -, hall⟩ | hcase
      · rw [hall entry (hbusy.symm.subset List.mem_cons_self)] at hsem
        cases hsem
      · exact hcase
    have heq := hunique entry (hbusy.symm.subset List.mem_cons_self) hsem
    subst heq
    have hnew : ∀ x ∈ s.waiting, x.2.id ≠ entry.id := by
      intro x hx hid
      refine honce.1 (List.mem_map.mpr ⟨x.2, ?_, hid⟩)
      exact List.mem_append_right _ (List.mem_map_of_mem hx)
    have hprobes : ∀ f ∈ s.jobs ++ s.flying ++ s.ended.erase entry, f.kind.semantic = false := by
      intro f hf
      by_contra hfsem
      have hfe := hunique f (hbusy.symm.subset (List.mem_cons_of_mem _ hf)) (by simpa using hfsem)
      refine honce.1 (List.mem_map.mpr ⟨f, List.mem_append_left _ hf, by rw [hfe]⟩)
    obtain ⟨hsplit, hcases⟩ := chained_release hchained hnew
    generalize hfree : s.waiting.filter (·.1 = entry.id) = free at hsplit hcases
    generalize hrest : s.waiting.filter (·.1 ≠ entry.id) = rest at hsplit hcases
    have hrelease : s.release entry = { s with
        ended := s.ended.erase entry
        queuedFacts := s.queuedFacts - 1
        queuedBytes := s.queuedBytes - entry.bytes
        jobs := s.jobs ++ free.map Prod.snd
        waiting := rest
        tail := if s.tail = some entry.id then none else s.tail } := by
      simp only [WorkerLog.release, hsem, if_true, hfree, hrest]
    rw [hrelease]
    have hperm : (s.jobs ++ free.map Prod.snd ++ s.flying ++ s.ended.erase entry ++
        rest.map Prod.snd).Perm
        (s.jobs ++ s.flying ++ s.ended.erase entry ++ s.waiting.map Prod.snd) := by
      rw [hsplit, List.map_append]
      simp only [List.append_assoc]
      refine List.Perm.append_left _ ?_
      simp only [← List.append_assoc]
      refine List.Perm.append_right _ ?_
      rw [List.append_assoc]
      exact List.perm_append_comm
    refine ⟨?_, h.ids, h.handed, ⟨?_, ?_⟩, ?_, ?_, ?_⟩
    · have hline := h.line
      rw [hsplit, List.map_append] at hline
      rw [← hline, List.append_assoc]
    · exact (hperm.map LogEntry.id).nodup_iff.mpr honce.2
    · exact fun f hf => hbound f (hperm.subset hf)
    · have hlen := hperm.length_eq
      simp only [inFlight, busy] at hlen ⊢
      omega
    · have hsum := (hperm.map LogEntry.bytes).sum_eq
      simp only [inFlight, busy] at hsum ⊢
      omega
    · rcases hcases with ⟨hnil, hfreeprobes, hlast⟩ | ⟨f, hmem, hfsem, hfunique, hfchained, hlast⟩
      · refine .inl ⟨hnil, ?_, ?_⟩
        · rw [htail, hlast, if_pos rfl]
        · intro g hg
          simp only [busy, List.mem_append, List.mem_map] at hg
          rcases hg with ((hg | ⟨x, hx, rfl⟩) | hg) | hg
          · exact hprobes g (by simp [hg])
          · exact hfreeprobes x hx
          · exact hprobes g (by simp [hg])
          · exact hprobes g (by simp [hg])
      · refine .inr ⟨f, ?_, hfsem, ?_, hfchained, ?_⟩
        · simp only [busy, List.mem_append]
          exact .inl (.inl (.inr hmem))
        · intro g hg hgsem
          simp only [busy, List.mem_append, List.mem_map] at hg
          rcases hg with ((hg | ⟨x, hx, rfl⟩) | hg) | hg
          · rw [hprobes g (by simp [hg])] at hgsem
            cases hgsem
          · exact hfunique x hx hgsem
          · rw [hprobes g (by simp [hg])] at hgsem
            cases hgsem
          · rw [hprobes g (by simp [hg])] at hgsem
            cases hgsem
        · have hne : lastKey f.id rest ≠ entry.id := by
            refine lastKey_ne ?_ ?_
            · obtain ⟨x, hx, rfl⟩ := List.mem_map.mp hmem
              exact hnew x (by rw [hsplit]; exact List.mem_append_left _ hx)
            · intro x hx
              exact hnew x (by rw [hsplit]; exact List.mem_append_right _ hx)
          rw [htail, hlast, if_neg (by simpa using hne)]
  · have hrelease : s.release entry = { s with
        ended := s.ended.erase entry
        queuedFacts := s.queuedFacts - 1
        queuedBytes := s.queuedBytes - entry.bytes } := by
      simp only [WorkerLog.release, hsem]
      rfl
    rw [hrelease]
    refine ⟨h.line, h.ids, h.handed, ⟨honce.2, hbound⟩, ?_, ?_, ?_⟩
    · simp only [inFlight, busy]
      omega
    · simp only [inFlight, busy]
      omega
    · rcases h.tail with ⟨hw, ht, hall⟩ | ⟨e, he, hesem, hunique, hchained, ht⟩
      · exact .inl ⟨hw, ht, fun f hf => hall f (hbusy.symm.subset (List.mem_cons_of_mem _ hf))⟩
      · refine .inr ⟨e, ?_, hesem, ?_, hchained, ht⟩
        · rcases List.mem_cons.mp (hbusy.subset he) with rfl | he
          · exact absurd hesem hsem
          · exact he
        · exact fun f hf => hunique f (hbusy.symm.subset (List.mem_cons_of_mem _ hf))

theorem Inv.act {capacity : ProducerCapacity} {s t : WorkerLog} {a : LogAction} (h : Inv s)
    (hact : act capacity s a = some t) : Inv t := by
  cases act_effect hact with
  | refused => exact h
  | enqueued _ kind bytes => exact h.enqueue kind bytes
  | ran entry jobs hs => exact h.run entry jobs hs
  | answered entry result hs => exact h.answer entry hs result
  | released entry hs => exact h.release entry hs
  | work terminal hs =>
    refine h.moved (List.Perm.refl _) rfl rfl ?_
    have hnone : [HandedFact.workFinished].filterMap HandedFact.entry = [] := rfl
    rw [List.filterMap_append, hnone, List.append_nil]
    exact h.handed
  | asked | closed | stopped | drained | attached | finished | unconfirmed =>
    exact h.moved (List.Perm.refl _) rfl rfl h.handed

/-! ## The budget -/

def Within (capacity : ProducerCapacity) (s : WorkerLog) : Prop :=
  s.queuedFacts ≤ capacity.maximumPendingFacts ∧ s.queuedBytes ≤ capacity.maximumPendingBytes

theorem Within.act {capacity : ProducerCapacity} {s t : WorkerLog} {a : LogAction}
    (h : Within capacity s) (hact : act capacity s a = some t) : Within capacity t := by
  cases act_effect hact with
  | enqueued _ kind bytes hfailed hclosing hfacts hbytes => exact ⟨hfacts, hbytes⟩
  | released entry hs =>
    have hless : Within capacity { s with
        queuedFacts := s.queuedFacts - 1
        queuedBytes := s.queuedBytes - entry.bytes } :=
      ⟨Nat.le_trans (Nat.sub_le _ _) h.1, Nat.le_trans (Nat.sub_le _ _) h.2⟩
    simp only [WorkerLog.release]
    split <;> exact hless
  | ran entry jobs hs =>
    simp only [WorkerLog.run]
    split <;> exact h
  | refused | answered | work | asked | closed | stopped | drained | attached | finished
  | unconfirmed => exact h

/-! ## The end of the log -/

structure Ending (s : WorkerLog) : Prop where
  closing : s.finishing ≠ none → s.closing = true
  draining : ∀ terminal awaited, s.finishing = some (terminal, .draining awaited) →
    s.tail = awaited ∨ s.tail = none
  past : ∀ terminal stage, s.finishing = some (terminal, stage) → stage.past = true → s.tail = none
  work : .workFinished ∈ s.handed → ∃ terminal,
    s.finishing = some (terminal, .appending) ∨ ∃ ok, s.finishing = some (terminal, .ended ok)

theorem run_handed (s : WorkerLog) (entry : LogEntry) :
    (s.run entry).handed = s.handed ∨
      (entry.kind.semantic = true ∨ s.closing = false) ∧ s.failed = false ∧
        (s.run entry).handed = s.handed ++ [HandedFact.fact entry] := by
  simp only [WorkerLog.run]
  split
  · exact .inl rfl
  · rename_i hno
    simp only [not_or, not_and, Bool.not_eq_true] at hno
    refine .inr ⟨?_, hno.2, rfl⟩
    by_cases hsem : entry.kind.semantic = true
    · exact .inl hsem
    · exact .inr (hno.1 (by simpa using hsem))

theorem run_same (s : WorkerLog) (entry : LogEntry) :
    ((s.run entry).finishing, (s.run entry).closing, (s.run entry).tail, (s.run entry).failed) =
      (s.finishing, s.closing, s.tail, s.failed) := by
  simp only [WorkerLog.run]
  split <;> rfl

theorem release_same (s : WorkerLog) (entry : LogEntry) :
    ((s.release entry).finishing, (s.release entry).closing, (s.release entry).handed,
      (s.release entry).failed) = (s.finishing, s.closing, s.handed, s.failed) ∧
    ((s.release entry).tail = s.tail ∨ (s.release entry).tail = none) := by
  simp only [WorkerLog.release]
  split
  · refine ⟨rfl, ?_⟩
    simp only
    split
    · exact .inr rfl
    · exact .inl rfl
  · exact ⟨rfl, .inl rfl⟩

theorem Ending.congr {s t : WorkerLog} (h : Ending s)
    (hsame : (t.finishing, t.closing) = (s.finishing, s.closing))
    (htail : t.tail = s.tail ∨ t.tail = none)
    (hhanded : .workFinished ∈ t.handed → .workFinished ∈ s.handed) : Ending t := by
  simp only [Prod.mk.injEq] at hsame
  obtain ⟨h1, h2⟩ := hsame
  refine ⟨?_, ?_, ?_, ?_⟩
  · rw [h1, h2]
    exact h.closing
  · intro terminal awaited hf
    rcases htail with ht | ht
    · rw [ht]
      exact h.draining terminal awaited (h1 ▸ hf)
    · exact .inr ht
  · intro terminal stage hf hpast
    rcases htail with ht | ht
    · rw [ht]
      exact h.past terminal stage (h1 ▸ hf) hpast
    · exact ht
  · intro hw
    rw [h1]
    exact h.work (hhanded hw)

theorem Ending.act {capacity : ProducerCapacity} {s t : WorkerLog} {a : LogAction} (h : Ending s)
    (hact : act capacity s a = some t) : Ending t := by
  cases act_effect hact with
  | refused => exact h
  | enqueued _ kind bytes hfailed hclosing hfacts hbytes =>
    have hnone : s.finishing = none := by
      by_contra hne
      rw [h.closing hne] at hclosing
      cases hclosing
    have hf : (s.enqueue kind bytes).finishing = none := hnone
    refine ⟨fun hne => absurd hf hne, ?_, ?_, h.work⟩
    · intro terminal awaited hs
      rw [hf] at hs
      cases hs
    · intro terminal stage hs
      rw [hf] at hs
      cases hs
  | asked terminal hnone =>
    refine ⟨fun _ => rfl, ?_, ?_, ?_⟩
    · intro terminal' awaited hs
      cases hs
      exact .inl rfl
    · intro terminal' stage hs hpast
      cases hs
      cases hpast
    · intro hw
      obtain ⟨terminal', hs | ⟨ok, hs⟩⟩ := h.work hw
      · rw [hnone] at hs
        cases hs
      · rw [hnone] at hs
        cases hs
  | closed => exact ⟨fun _ => rfl, h.draining, h.past, h.work⟩
  | stopped => exact h.congr rfl (.inl rfl) id
  | ran entry jobs hs =>
    have hsame := run_same { s with jobs } entry
    simp only [Prod.mk.injEq] at hsame
    obtain ⟨h1, h2, h3, -⟩ := hsame
    refine h.congr (by rw [h1, h2]) (.inl h3) ?_
    intro hw
    rcases run_handed { s with jobs } entry with heq | ⟨-, -, heq⟩
    · rwa [heq] at hw
    · rw [heq] at hw
      simpa using hw
  | answered entry result hs => exact h.congr rfl (.inl rfl) id
  | released entry hs =>
    obtain ⟨hsame, htail⟩ := release_same s entry
    simp only [Prod.mk.injEq] at hsame
    obtain ⟨h1, h2, h3, -⟩ := hsame
    refine h.congr (by rw [h1, h2]) htail ?_
    rw [h3]
    exact id
  | drained terminal awaited hs hresolved =>
    have hclosing := h.closing (by rw [hs]; nofun)
    refine ⟨fun _ => hclosing, ?_, ?_, ?_⟩
    · intro terminal' awaited' hs'
      simp only [Option.some.injEq, Prod.mk.injEq] at hs'
      have hno := hs'.2
      split at hno <;> cases hno
    · intro terminal' stage hs' hpast
      rcases h.draining terminal awaited hs with ht | ht
      · rcases hresolved with hnone | hne
        · exact ht.trans hnone
        · exact absurd ht hne
      · exact ht
    · intro hw
      obtain ⟨terminal', hs' | ⟨ok, hs'⟩⟩ := h.work hw
      · rw [hs] at hs'
        cases hs'
      · rw [hs] at hs'
        cases hs'
  | attached terminal hs =>
    have hclosing := h.closing (by rw [hs]; nofun)
    have hnone := h.past terminal .drained hs rfl
    refine ⟨fun _ => hclosing, nofun, fun _ _ _ _ => hnone, fun _ => ⟨terminal, .inr ⟨false, rfl⟩⟩⟩
  | work terminal hs =>
    have hclosing := h.closing (by rw [hs]; nofun)
    have hnone := h.past terminal .drained hs rfl
    exact ⟨fun _ => hclosing, nofun, fun _ _ _ _ => hnone, fun _ => ⟨terminal, .inl rfl⟩⟩
  | finished terminal hs =>
    have hclosing := h.closing (by rw [hs]; nofun)
    have hnone := h.past terminal .appending hs rfl
    exact ⟨fun _ => hclosing, nofun, fun _ _ _ _ => hnone, fun _ => ⟨terminal, .inr ⟨true, rfl⟩⟩⟩
  | unconfirmed terminal result hno hs =>
    have hclosing := h.closing (by rw [hs]; nofun)
    have hnone := h.past terminal .appending hs rfl
    exact ⟨fun _ => hclosing, nofun, fun _ _ _ _ => hnone, fun _ => ⟨terminal, .inr ⟨false, rfl⟩⟩⟩

theorem act_hands {capacity : ProducerCapacity} {s t : WorkerLog} {a : LogAction}
    (hact : act capacity s a = some t) :
    t.handed = s.handed ∨
      (∃ e ∈ s.jobs, (e.kind.semantic = true ∨ s.closing = false) ∧ s.failed = false ∧
        t.handed = s.handed ++ [HandedFact.fact e]) ∨
      ∃ terminal, s.finishing = some (terminal, .drained) ∧
        t.handed = s.handed ++ [HandedFact.workFinished] ∧ t.finishing = some (terminal, .appending) := by
  cases act_effect hact with
  | ran entry jobs hs =>
    rcases run_handed { s with jobs } entry with heq | ⟨hsem, hfailed, heq⟩
    · exact .inl heq
    · exact .inr (.inl ⟨entry, by simp [hs], hsem, hfailed, heq⟩)
  | released entry hs =>
    have hsame := (release_same s entry).1
    simp only [Prod.mk.injEq] at hsame
    exact .inl hsame.2.2.1
  | work terminal hs => exact .inr (.inr ⟨terminal, hs, rfl, rfl⟩)
  | refused | enqueued | asked | closed | stopped | answered | drained | attached | finished
  | unconfirmed => exact .inl rfl

theorem act_failed {capacity : ProducerCapacity} {s t : WorkerLog} {a : LogAction}
    (hact : act capacity s a = some t) (h : s.failed = true) : t.failed = true ∧
      ∀ terminal, t.finishing = some (terminal, .drained) →
        s.finishing = some (terminal, .drained) := by
  cases act_effect hact with
  | refused => exact ⟨h, fun _ => id⟩
  | enqueued _ kind bytes => exact ⟨h, fun _ => id⟩
  | asked terminal hs => exact ⟨h, fun _ hd => nomatch hd⟩
  | closed => exact ⟨h, fun _ => id⟩
  | stopped => exact ⟨rfl, fun _ => id⟩
  | ran entry jobs hs =>
    have hsame := run_same { s with jobs } entry
    simp only [Prod.mk.injEq] at hsame
    rw [hsame.1, hsame.2.2.2]
    exact ⟨h, fun _ => id⟩
  | answered entry result hs =>
    refine ⟨?_, fun _ => id⟩
    simp [WorkerLog.answer, h]
  | released entry hs =>
    have hsame := (release_same s entry).1
    simp only [Prod.mk.injEq] at hsame
    rw [hsame.1, hsame.2.2.2]
    exact ⟨h, fun _ => id⟩
  | drained terminal awaited hs hresolved =>
    refine ⟨h, ?_⟩
    intro terminal' hd
    simp only [h, if_true] at hd
    cases hd
  | attached terminal hs => exact ⟨h, fun _ hd => nomatch hd⟩
  | work terminal hs => exact ⟨h, fun _ hd => nomatch hd⟩
  | finished terminal hs => exact ⟨h, fun _ hd => nomatch hd⟩
  | unconfirmed terminal result hno hs => exact ⟨rfl, fun _ hd => nomatch hd⟩

/-- After a failure nothing is handed over, but for the work of a `finish` that has drained. -/
theorem failed_run {capacity : ProducerCapacity} {s t : WorkerLog} (h : s.failed = true)
    (as : List LogAction) (hrun : as.foldlM (act capacity) s = some t) :
    t.handed = s.handed ∨ ∃ terminal, s.finishing = some (terminal, .drained) ∧
      t.handed = s.handed ++ [HandedFact.workFinished] := by
  induction as generalizing s with
  | nil =>
    cases hrun
    exact .inl rfl
  | cons a as ih =>
    obtain ⟨u, hu, hrun⟩ := Option.bind_eq_some_iff.mp hrun
    obtain ⟨hfailed, hdrained⟩ := act_failed hu h
    have hnext := ih hfailed hrun
    rcases act_hands hu with hsame | ⟨e, -, -, hno, -⟩ | ⟨terminal, hs, hhanded, hu'⟩
    · rw [hsame] at hnext
      rcases hnext with hnext | ⟨terminal, hd, hnext⟩
      · exact .inl hnext
      · exact .inr ⟨terminal, hdrained terminal hd, hnext⟩
    · rw [h] at hno
      cases hno
    · refine .inr ⟨terminal, hs, ?_⟩
      rcases hnext with hnext | ⟨terminal', hd, -⟩
      · rw [hnext, hhanded]
      · rw [hu'] at hd
        cases hd

theorem work_act {capacity : ProducerCapacity} {s t : WorkerLog} {a : LogAction} (h : Inv s)
    (hending : Ending s) (hwork : .workFinished ∈ s.handed) (hact : act capacity s a = some t) :
    t.handed = s.handed := by
  obtain ⟨terminal, hstage⟩ := hending.work hwork
  have hpast : s.closing = true ∧ s.tail = none := by
    rcases hstage with hs | ⟨ok, hs⟩
    · exact ⟨hending.closing (by rw [hs]; nofun), hending.past terminal .appending hs rfl⟩
    · exact ⟨hending.closing (by rw [hs]; nofun), hending.past terminal (.ended ok) hs rfl⟩
  have hprobes := (TailInv.waiting_nil (hpast.2 ▸ h.tail)).2
  rcases act_hands hact with hsame | ⟨e, he, hcase, -, -⟩ | ⟨terminal', hs, -, -⟩
  · exact hsame
  · rcases hcase with hsem | hopen
    · rw [hprobes e (by simp [busy, he])] at hsem
      cases hsem
    · rw [hpast.1] at hopen
      cases hopen
  · rcases hstage with hs' | ⟨ok, hs'⟩
    · rw [hs] at hs'
      cases hs'
    · rw [hs] at hs'
      cases hs'

theorem work_run {capacity : ProducerCapacity} {s t : WorkerLog} (h : Inv s)
    (hending : Ending s) (hwork : .workFinished ∈ s.handed) (as : List LogAction)
    (hrun : as.foldlM (act capacity) s = some t) : t.handed = s.handed := by
  induction as generalizing s with
  | nil =>
    cases hrun
    rfl
  | cons a as ih =>
    obtain ⟨u, hu, hrun⟩ := Option.bind_eq_some_iff.mp hrun
    have hsame := work_act h hending hwork hu
    rw [← hsame]
    exact ih (h.act hu) (hending.act hu) (by rwa [hsame]) hrun

/-! ## Poison -/

end WorkerLog

/-- What may abort the failure signal. -/
def LogAction.poisons : LogAction → Bool
  | .answer _ result => result.uncertain
  | .producerFailed => true
  | .finishAnswered result => decide (result ≠ .durable)
  | _ => false

namespace WorkerLog

def Served (s : WorkerLog) : Prop :=
  ∀ e ∈ s.ran, e.kind.semantic = true → .fact e ∈ s.handed

theorem act_clean {capacity : ProducerCapacity} {s t : WorkerLog} {a : LogAction}
    (hact : act capacity s a = some t) (ha : a.poisons = false) (h : s.failed = false)
    (hserved : Served s) : t.failed = false ∧ Served t := by
  cases act_effect hact with
  | refused => exact ⟨h, hserved⟩
  | enqueued _ kind bytes => exact ⟨h, hserved⟩
  | asked terminal hs => exact ⟨h, hserved⟩
  | closed => exact ⟨h, hserved⟩
  | stopped => cases ha
  | ran entry jobs hs =>
    have hsame := run_same { s with jobs } entry
    simp only [Prod.mk.injEq] at hsame
    refine ⟨hsame.2.2.2.trans h, ?_⟩
    intro e he hsem
    simp only [WorkerLog.run] at he ⊢
    split
    · rename_i hskip
      rw [if_pos hskip] at he
      rcases List.mem_append.mp he with he | he
      · exact hserved e he hsem
      · have heq := List.mem_singleton.mp he
        subst heq
        rcases hskip with ⟨hprobe, -⟩ | hfailed
        · rw [hprobe] at hsem
          cases hsem
        · exact absurd (h.symm.trans hfailed) nofun
    · rename_i hgo
      rw [if_neg hgo] at he
      rcases List.mem_append.mp he with he | he
      · exact List.mem_append_left _ (hserved e he hsem)
      · rw [List.mem_singleton.mp he]
        exact List.mem_append_right _ (List.mem_singleton_self _)
  | answered entry result hs =>
    refine ⟨?_, hserved⟩
    have hcertain : result.uncertain = false := ha
    simp [WorkerLog.answer, h, hcertain]
  | released entry hs =>
    have hsame := (release_same s entry).1
    simp only [Prod.mk.injEq] at hsame
    refine ⟨hsame.2.2.2.trans h, ?_⟩
    have hran : (s.release entry).ran = s.ran := by
      simp only [WorkerLog.release]
      split <;> rfl
    unfold Served
    rw [hran, hsame.2.2.1]
    exact hserved
  | drained terminal awaited hs hresolved => exact ⟨h, hserved⟩
  | attached terminal hs => exact ⟨h, hserved⟩
  | work terminal hs =>
    exact ⟨h, fun e he hsem => List.mem_append_left _ (hserved e he hsem)⟩
  | finished terminal hs => exact ⟨h, hserved⟩
  | unconfirmed terminal result hno hs =>
    exact absurd ha (by simpa [LogAction.poisons] using hno)

/-! ## Runs -/

theorem inv_init : Inv {} where
  line := rfl
  ids := rfl
  handed := List.Sublist.refl _
  once := ⟨List.nodup_nil, nofun⟩
  facts := rfl
  bytes := rfl
  tail := .inl ⟨rfl, rfl, nofun⟩

theorem ending_init : Ending {} where
  closing hne := absurd rfl hne
  draining := nofun
  past := nofun
  work := nofun

theorem reach_inv {capacity : ProducerCapacity} {as : List LogAction} {s : WorkerLog}
    (h : Reach (system capacity) as s) : Inv s ∧ Ending s ∧ Within capacity s := by
  refine h.invariant (fun s => Inv s ∧ Ending s ∧ Within capacity s) ?_ ?_
  · intro s hs
    cases hs
    exact ⟨inv_init, ending_init, Nat.zero_le _, Nat.zero_le _⟩
  · intro s a t hs hstep
    exact ⟨hs.1.act hstep, hs.2.1.act hstep, hs.2.2.act hstep⟩

theorem reach_clean {capacity : ProducerCapacity} {as : List LogAction} {s : WorkerLog}
    (h : Reach (system capacity) as s) (has : ∀ a ∈ as, a.poisons = false) :
    s.failed = false ∧ Served s := by
  induction h with
  | init hs =>
    cases hs
    exact ⟨rfl, nofun⟩
  | next _ hstep ih =>
    rw [List.forall_mem_append] at has
    obtain ⟨hfailed, hserved⟩ := ih has.1
    exact act_clean hstep (has.2 _ (List.mem_singleton_self _)) hfailed hserved

theorem inFlight_turn {capacity : ProducerCapacity} {s : WorkerLog} (h : Inv s)
    (hs : s.inFlight ≠ []) :
    (act capacity s .run).isSome = true ∨
      ∃ e : LogEntry, (∀ result, (act capacity s (.answer e result)).isSome = true) ∨
        (act capacity s (.release e)).isSome = true := by
  have hbusy : s.busy ≠ [] := by
    intro hnil
    rcases h.tail with ⟨hw, -, -⟩ | ⟨e, he, -⟩
    · exact hs (by simp [inFlight, hnil, hw])
    · rw [hnil] at he
      cases he
  cases hj : s.jobs with
  | cons entry jobs => exact .inl (by simp [act, hj])
  | nil =>
    right
    cases hf : s.flying with
    | cons entry flying => exact ⟨entry, .inl fun result => by simp [act, hf]⟩
    | nil =>
      cases he : s.ended with
      | cons entry ended => exact ⟨entry, .inr (by simp [act, he])⟩
      | nil => exact absurd (by simp [busy, hj, hf, he]) hbusy

end WorkerLog

/-- In every run the facts are handed to the bus in the order of their admission, each at most
once, and nothing follows the fact that ends the work. After an append of uncertain outcome
nothing is handed over but the end of the work, and this only where its drain had ended before.
Unless an outcome is uncertain, the producer fails or the end of the work is not confirmed, the log
does not fail and hands over every semantic fact in its turn, also after definite failures. The
counters count the admitted facts in flight, stay within the capacity, and the facts in flight
settle. -/
theorem worker_log (capacity : ProducerCapacity) (as : List LogAction) (s : WorkerLog)
    (hs : Reach (WorkerLog.system capacity) as s) :
    ((s.handed.filterMap HandedFact.entry).Sublist s.admitted ∧
      (s.admitted.map LogEntry.id).Nodup) ∧
    (HandedFact.workFinished ∈ s.handed → ∀ (bs : List LogAction) (t : WorkerLog),
      bs.foldlM (WorkerLog.act capacity) s = some t → t.handed = s.handed) ∧
    (∀ (entry : LogEntry) (result : AppendEnd) (u : WorkerLog),
      WorkerLog.act capacity s (.answer entry result) = some u → result.uncertain = true →
      ∀ (bs : List LogAction) (t : WorkerLog), bs.foldlM (WorkerLog.act capacity) u = some t →
        t.handed = u.handed ∨ ∃ terminal, u.finishing = some (terminal, .drained) ∧
          t.handed = u.handed ++ [HandedFact.workFinished]) ∧
    ((∀ a ∈ as, a.poisons = false) → s.failed = false ∧ WorkerLog.Served s) ∧
    (s.queuedFacts = s.inFlight.length ∧ s.queuedBytes = (s.inFlight.map LogEntry.bytes).sum ∧
      s.queuedFacts ≤ capacity.maximumPendingFacts ∧
      s.queuedBytes ≤ capacity.maximumPendingBytes) ∧
    (s.inFlight ≠ [] → (WorkerLog.act capacity s .run).isSome = true ∨
      ∃ e : LogEntry, (∀ result, (WorkerLog.act capacity s (.answer e result)).isSome = true) ∨
        (WorkerLog.act capacity s (.release e)).isSome = true) := by
  obtain ⟨hinv, hending, hwithin⟩ := WorkerLog.reach_inv hs
  refine ⟨⟨?_, ?_⟩, ?_, ?_, WorkerLog.reach_clean hs, ⟨hinv.facts, hinv.bytes, hwithin⟩,
    WorkerLog.inFlight_turn hinv⟩
  · rw [← hinv.line]
    exact hinv.handed.trans (List.sublist_append_left _ _)
  · rw [hinv.ids]
    exact List.nodup_range
  · intro hwork bs t hrun
    exact WorkerLog.work_run hinv hending hwork bs hrun
  · intro entry result u hu huncertain bs t hrun
    refine WorkerLog.failed_run ?_ bs hrun
    simp only [WorkerLog.act] at hu
    split at hu
    · cases hu
      simp [WorkerLog.answer, huncertain]
    · cases hu

def finishRun : List LogAction :=
  [.commitNative (some 10), .run, .answer ⟨0, .durableCommit, 10⟩ .durable,
    .release ⟨0, .durableCommit, 10⟩, .finish [], .drained, .appendFinished false]

def smallCapacity : ProducerCapacity where
  maximumPendingFacts := 2
  maximumPendingBytes := 100

def finishingLog : WorkerLog := (finishRun.foldlM (WorkerLog.act smallCapacity) {}).getD {}

theorem finishingLog_reach : Reach (WorkerLog.system smallCapacity) finishRun finishingLog := by
  have hrun : finishRun.foldlM (WorkerLog.act smallCapacity) {} = some finishingLog := by decide
  exact (Reach.init rfl).foldlM (fun _ _ _ h => h) finishRun hrun

theorem worker_log_finishing :
    finishingLog.queuedFacts = finishingLog.inFlight.length ∧
      ∀ (bs : List LogAction) (t : WorkerLog),
        bs.foldlM (WorkerLog.act smallCapacity) finishingLog = some t →
          t.handed = finishingLog.handed :=
  ⟨(worker_log smallCapacity _ finishingLog finishingLog_reach).2.2.2.2.1.1,
    (worker_log smallCapacity _ finishingLog finishingLog_reach).2.1 (by decide)⟩

/-- `PublicationNotSentError` of the fact that ends the work poisons the log. -/
theorem notSent_poisons : ¬∀ (capacity : ProducerCapacity) (as : List LogAction) (s t : WorkerLog),
    Reach (WorkerLog.system capacity) as s → s.failed = false →
      WorkerLog.act capacity s (.finishAnswered .notSent) = some t → t.failed = false := by
  intro hclaim
  have hfalse := hclaim smallCapacity finishRun finishingLog
    { finishingLog with failed := true, finishing := some ([], .ended false) } finishingLog_reach
    (by decide) (by decide)
  cases hfalse

end Runtime
end PiCloud
