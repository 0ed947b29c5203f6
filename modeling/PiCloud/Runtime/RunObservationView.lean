import PiCloud.Lib.History
import PiCloud.Runtime.EventSubscription

/-!
# Runtime.RunObservationView

`RunObservationView` of `run-observation-view.ts`: which of the observations of a session its stream
lets through to the browser.

* `RunningTurn`, `RunObservationView`: the running turns, with what was let through for each.
* `event`, `accept`: a turn starts or ends; an observation arrives.
* `accepted_ordered`: whatever arrives, nothing is let through for a turn after something newer.
-/

namespace PiCloud
namespace Runtime

open Lib Protocol

/-- Of one turn, type and child the later observation is of a later generation, or of the same one and
newer. -/
def RunObservation.Before (a b : RunObservation) : Prop :=
  a.key = b.key → a.generation < b.generation ∨ a.generation = b.generation ∧ a.position < b.position

structure RunningTurn where
  runId : Option JsString := none
  generation : Nat := 0
  revision : Nat := 0
  pathAt : Nat := 0
  executionRevision : Nat := 0
  children : InsertionMap JsString Nat := {}
  /-- what was let through, oldest first -/
  accepted : List RunObservation := []

namespace RunningTurn

variable (run : RunningTurn)

/-- The baselines of a generation that is new. -/
def inGeneration (value : RunObservation) : RunningTurn :=
  let run := { run with runId := some value.runId }
  if run.generation < value.generation then
    { run with
      generation := value.generation, revision := 0, pathAt := 0, executionRevision := 0, children := {} }
  else run

/-- The position of the last observation like this one. -/
def baseline (value : RunObservation) : Nat :=
  match value.body with
  | .childActivity _ childSessionId .. => (run.children.get childSessionId).getD 0
  | .path .. => run.pathAt
  | .execution .. => run.executionRevision
  | .activity .. => run.revision

def advanced (value : RunObservation) : RunningTurn :=
  let run := { run with accepted := run.accepted ++ [value] }
  match value.body with
  | .childActivity _ childSessionId _ _ revision .. =>
    { run with children := run.children.set childSessionId revision }
  | .path sentAt _ => { run with pathAt := sentAt }
  | .execution revision .. => { run with executionRevision := revision }
  | .activity revision .. => { run with revision }

end RunningTurn

/-- When an observation was made. -/
def RunObservation.madeAt (value : RunObservation) : Nat :=
  match value.body with
  | .path sentAt _ => sentAt
  | .execution _ observedAt _ => observedAt
  | .activity _ observedAt .. => observedAt
  | .childActivity _ _ _ _ _ observedAt .. => observedAt

structure RunObservationView where
  running : InsertionMap JsString RunningTurn := {}

/-- A turn of the conversation, with whether it is running or cancelling. -/
structure ConversationTurnResource where
  turnId : JsString
  runId : Option JsString
  isRunning : Bool

namespace RunObservationView

variable (view : RunObservationView)

def addTurn (turn : ConversationTurnResource) : RunObservationView :=
  if turn.isRunning then { running := view.running.set turn.turnId { runId := turn.runId } } else view

def ofConversation (turns : List ConversationTurnResource) : RunObservationView :=
  turns.foldl addTurn {}

def started : EventBody → Bool
  | .turnStarted .. => true
  | _ => false

def event (event : PiCloudEvent) : RunObservationView :=
  match event.turnId with
  | none => view
  | some turnId =>
    if turnId = [] then view
    else
      let running :=
        if started event.body ∧ view.running.get turnId = none then view.running.set turnId {}
        else view.running
      { running := if event.body.isTerminal then running.delete turnId else running }

def refused (run : RunningTurn) (value : RunObservation) (now now' : Nat) : Bool :=
  run.runId.any (fun id => id ≠ [] && id ≠ value.runId) || value.generation < run.generation ||
    value.madeAt + 45000 < now || now' + 5000 < value.madeAt

def accept (value : RunObservation) (now now' : Nat) : Bool × RunObservationView :=
  match view.running.get value.turnId with
  | none => (false, view)
  | some run =>
    if refused run value now now' then (false, view)
    else
      let run := run.inGeneration value
      if value.position ≤ run.baseline value then
        (false, { running := view.running.set value.turnId run })
      else (true, { running := view.running.set value.turnId (run.advanced value) })

inductive Op where
  | event (event : PiCloudEvent)
  | accept (value : RunObservation) (now now' : Nat)

def apply : Op → RunObservationView
  | .event e => view.event e
  | .accept value now now' => (view.accept value now now').2

def run (ops : List Op) : RunObservationView := ops.foldl apply view

end RunObservationView

/-! ## What a turn has let through -/

/-- Everything let through is of this turn, and no newer than its baseline says. -/
structure RunningTurn.Sound (run : RunningTurn) (turnId : JsString) : Prop where
  turn : ∀ a ∈ run.accepted, a.turnId = turnId
  generations : ∀ a ∈ run.accepted, a.generation ≤ run.generation
  positions : ∀ a ∈ run.accepted, a.generation = run.generation → a.position ≤ run.baseline a
  ordered : run.accepted.Pairwise RunObservation.Before

namespace RunningTurn

variable {run : RunningTurn} {turnId : JsString}

theorem sound_fresh (runId : Option JsString) : Sound { runId } turnId where
  turn _ h := by cases h
  generations _ h := by cases h
  positions _ h := by cases h
  ordered := .nil

theorem Sound.inGeneration (h : run.Sound turnId) {value : RunObservation}
    (hgeneration : run.generation ≤ value.generation) :
    (run.inGeneration value).Sound turnId ∧
      (run.inGeneration value).generation = value.generation := by
  unfold RunningTurn.inGeneration
  dsimp only
  split
  · rename_i hlt
    refine ⟨⟨h.turn, ?_, ?_, h.ordered⟩, rfl⟩
    · exact fun a ha => Nat.le_of_lt (Nat.lt_of_le_of_lt (h.generations a ha) hlt)
    · intro a ha heq
      exact absurd (h.generations a ha) (Nat.not_le_of_lt (heq ▸ hlt))
  · rename_i hle
    exact ⟨⟨h.turn, h.generations, h.positions, h.ordered⟩,
      Nat.le_antisymm hgeneration (Nat.le_of_not_lt hle)⟩

theorem baseline_advanced {value a : RunObservation} (hturn : a.turnId = value.turnId) :
    (run.advanced value).baseline a = if a.key = value.key then value.position else run.baseline a := by
  obtain ⟨sessionId, turnId, runId, generation, body⟩ := value
  obtain ⟨sessionId', turnId', runId', generation', body'⟩ := a
  dsimp only at hturn
  subst hturn
  cases body with
  | childActivity state child turn call revision =>
    cases body' with
    | childActivity state' child' =>
      by_cases hchild : child' = child
      · subst hchild
        simp [advanced, baseline, RunObservation.key, RunObservation.position]
      · simp [advanced, baseline, RunObservation.key, InsertionMap.get_set_ne _ _ hchild, hchild]
    | _ => simp [advanced, baseline, RunObservation.key]
  | _ =>
    cases body' <;> simp [advanced, baseline, RunObservation.key, RunObservation.position]

theorem baseline_key {a b : RunObservation} (h : a.key = b.key) : run.baseline a = run.baseline b := by
  obtain ⟨sessionId, turnId, runId, generation, body⟩ := a
  obtain ⟨sessionId', turnId', runId', generation', body'⟩ := b
  cases body <;> cases body' <;> simp_all [baseline, RunObservation.key]

theorem advanced_rest (run : RunningTurn) (value : RunObservation) :
    (run.advanced value).generation = run.generation ∧
      (run.advanced value).accepted = run.accepted ++ [value] := by
  unfold advanced
  dsimp only
  split <;> exact ⟨rfl, rfl⟩

theorem Sound.advanced (h : run.Sound turnId) {value : RunObservation} (hturn : value.turnId = turnId)
    (hgeneration : run.generation = value.generation) (hnewer : run.baseline value < value.position) :
    (run.advanced value).Sound turnId := by
  obtain ⟨hgen, haccepted⟩ := advanced_rest run value
  have hmem : ∀ {a}, a ∈ (run.advanced value).accepted → a ∈ run.accepted ∨ a = value := by
    intro a ha
    rw [haccepted] at ha
    exact mem_snoc.mp ha
  refine ⟨?_, ?_, ?_, ?_⟩
  · intro a ha
    obtain ha | rfl := hmem ha
    · exact h.turn a ha
    · exact hturn
  · intro a ha
    rw [hgen]
    obtain ha | rfl := hmem ha
    · exact h.generations a ha
    · exact Nat.le_of_eq hgeneration.symm
  · intro a ha hcurrent
    rw [hgen] at hcurrent
    obtain ha | rfl := hmem ha
    · rw [baseline_advanced ((h.turn a ha).trans hturn.symm)]
      have hle := h.positions a ha hcurrent
      split
      · rename_i hkey
        rw [baseline_key hkey] at hle
        exact Nat.le_trans hle (Nat.le_of_lt hnewer)
      · exact hle
    · exact Nat.le_of_eq (by rw [baseline_advanced rfl, if_pos rfl])
  · rw [haccepted]
    refine pairwise_snoc h.ordered fun a ha hkey => ?_
    obtain hlt | heq := Nat.lt_or_eq_of_le (h.generations a ha)
    · exact .inl (hgeneration ▸ hlt)
    · refine .inr ⟨heq.trans hgeneration, ?_⟩
      have hle := h.positions a ha heq
      rw [baseline_key hkey] at hle
      exact Nat.lt_of_le_of_lt hle hnewer

end RunningTurn

namespace RunObservationView

variable {view : RunObservationView}

def Sound (view : RunObservationView) : Prop :=
  ∀ turnId run, view.running.get turnId = some run → run.Sound turnId

theorem Sound.set (h : view.Sound) {turnId : JsString} {run : RunningTurn} (hrun : run.Sound turnId) :
    Sound { running := view.running.set turnId run } := by
  intro j r hr
  rw [InsertionMap.get_set] at hr
  split at hr
  · rename_i hj
    cases hr
    exact hj ▸ hrun
  · exact h j r hr

theorem sound_ofConversation (turns : List ConversationTurnResource) : (ofConversation turns).Sound := by
  have hfold : ∀ view : RunObservationView, view.Sound → (turns.foldl addTurn view).Sound := by
    induction turns with
    | nil => exact fun _ h => h
    | cons turn turns ih =>
      intro view h
      refine ih _ ?_
      unfold addTurn
      split
      · exact h.set (RunningTurn.sound_fresh _)
      · exact h
  exact hfold {} fun _ _ h => by cases h

theorem Sound.event (h : view.Sound) (e : PiCloudEvent) : (view.event e).Sound := by
  unfold RunObservationView.event
  split
  · exact h
  · rename_i turnId _
    split
    · exact h
    · have hstarted : Sound (RunObservationView.mk
          (if started e.body ∧ view.running.get turnId = none then view.running.set turnId {}
            else view.running)) := by
        split
        · exact h.set (RunningTurn.sound_fresh none)
        · exact h
      dsimp only
      split
      · exact fun j r hr => hstarted j r (InsertionMap.get_delete_some hr)
      · exact hstarted

theorem Sound.accept (h : view.Sound) (value : RunObservation) (now now' : Nat) :
    (view.accept value now now').2.Sound := by
  unfold RunObservationView.accept
  split
  · exact h
  · rename_i run hrun
    split
    · exact h
    · rename_i hrefused
      have hgeneration : run.generation ≤ value.generation := by
        by_contra hlt
        refine hrefused ?_
        unfold refused
        simp [Nat.lt_of_not_le hlt]
      obtain ⟨hsound, hcurrent⟩ := (h _ run hrun).inGeneration hgeneration
      dsimp only
      split
      · exact h.set hsound
      · rename_i hnewer
        exact h.set (hsound.advanced rfl hcurrent (Nat.lt_of_not_le hnewer))

theorem Sound.run (h : view.Sound) (ops : List Op) : (view.run ops).Sound := by
  unfold RunObservationView.run
  induction ops generalizing view with
  | nil => exact h
  | cons op ops ih =>
    refine ih ?_
    cases op with
    | event e => exact h.event e
    | accept value now now' => exact h.accept value now now'

theorem accepted_ordered (turns : List ConversationTurnResource) (ops : List Op) {turnId : JsString}
    {run : RunningTurn} (hrun : ((ofConversation turns).run ops).running.get turnId = some run) :
    run.accepted.Pairwise RunObservation.Before :=
  ((sound_ofConversation turns).run ops turnId run hrun).ordered

end RunObservationView
end Runtime
end PiCloud
