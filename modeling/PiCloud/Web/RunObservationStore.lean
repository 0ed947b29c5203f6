import PiCloud.Runtime.ObservationOrder
import PiCloud.Runtime.RunObservationView

/-!
# Web.RunObservationStore

`RunObservationStore` of `run-observation-store.ts`: the latest observations of each turn that is on
the screen.

* `Observations`, `RunObservationStore`: the bundle of a turn; the listeners of the turns.
* `subscribe`, `unsubscribe`, `receive`, `toolProgress`, `reset`: the calls.
* `taken_ordered`: whatever arrives, nothing is shown in a bundle after something newer.
* `observations_ordered`: the whole way of an observation, from the projector to the screen.
-/

namespace PiCloud
namespace Web

open Lib Protocol PiCloud.Runtime

structure Observations where
  generation : Option Nat := none
  activity : Option RunObservation := none
  path : Option RunObservation := none
  execution : Option RunObservation := none
  toolActivityAt : Option Nat := none
  children : InsertionMap JsString RunObservation := {}
  /-- what was ever shown since the bundle was made, oldest first -/
  taken : List RunObservation := []

namespace Observations

variable (v : Observations)

/-- The observation that is shown where this one would be. -/
def prior (value : RunObservation) : Option RunObservation :=
  match value.body with
  | .childActivity _ childSessionId .. => v.children.get childSessionId
  | .activity .. => v.activity
  | .execution .. => v.execution
  | .path .. => v.path

def withShown (value : RunObservation) : Observations :=
  let v := { v with taken := v.taken ++ [value] }
  match value.body with
  | .childActivity _ childSessionId .. =>
    { v with children := v.children.set childSessionId value }
  | .activity .. => { v with activity := some value }
  | .execution .. => { v with execution := some value }
  | .path .. => { v with path := some value }

def knownRun : Option JsString :=
  ((v.activity.or v.path).or v.execution).map fun o => o.runId

def current (generation : Nat) : Observations :=
  if v.generation.getD 0 < generation then { generation := some generation, taken := v.taken } else v

end Observations

structure RunObservationStore where
  values : InsertionMap JsString Observations := {}
  /-- which of the sets of listeners is the one of a turn -/
  listeners : InsertionMap JsString Nat := {}
  /-- the listeners in each set ever made -/
  sets : Nat → List Nat := fun _ => []
  made : Nat := 0

namespace RunObservationStore

variable (s : RunObservationStore)

/-- The set a new listener of a turn joins. -/
def subscribe (turnId : JsString) (listener : Nat) : RunObservationStore :=
  match s.listeners.get turnId with
  | some set => { s with sets := Function.update s.sets set ((s.sets set).insert listener) }
  | none => { s with
      listeners := s.listeners.set turnId s.made
      sets := Function.update s.sets s.made [listener]
      made := s.made + 1 }

/-- What `subscribe` returned is called: it still has its own set. -/
def unsubscribe (turnId : JsString) (set listener : Nat) : RunObservationStore :=
  let remaining := (s.sets set).erase listener
  let s := { s with sets := Function.update s.sets set remaining }
  if remaining = [] then
    { s with listeners := s.listeners.delete turnId, values := s.values.delete turnId }
  else s

def receive (value : RunObservation) : RunObservationStore :=
  if s.listeners.get value.turnId = none then s
  else
    let previous := (s.values.get value.turnId).getD {}
    if previous.knownRun.any fun id => id ≠ [] && id ≠ value.runId then s
    else if value.generation < previous.generation.getD 0 then s
    else
      let current := previous.current value.generation
      if (current.prior value).any fun prior => value.position ≤ prior.position then s
      else { s with values := s.values.set value.turnId (current.withShown value) }

def toolProgress (turnId : JsString) (now : Nat) : RunObservationStore :=
  if s.listeners.get turnId = none then s
  else
    let v := { (s.values.get turnId).getD {} with toolActivityAt := some now }
    { s with values := s.values.set turnId v }

def reset : RunObservationStore := { s with values := {} }

inductive Op where
  | subscribe (turnId : JsString) (listener : Nat)
  | unsubscribe (turnId : JsString) (set listener : Nat)
  | receive (value : RunObservation)
  | toolProgress (turnId : JsString) (now : Nat)
  | reset

def apply : Op → RunObservationStore
  | .subscribe turnId listener => s.subscribe turnId listener
  | .unsubscribe turnId set listener => s.unsubscribe turnId set listener
  | .receive value => s.receive value
  | .toolProgress turnId now => s.toolProgress turnId now
  | .reset => s.reset

def run (ops : List Op) : RunObservationStore := ops.foldl apply s

end RunObservationStore

/-! ## What a bundle has shown -/

structure Observations.Sound (v : Observations) (turnId : JsString) : Prop where
  turn : ∀ a ∈ v.taken, a.turnId = turnId
  generations : ∀ a ∈ v.taken, a.generation ≤ v.generation.getD 0
  /-- what is shown is of the generation of the bundle, and the newest of what was shown -/
  newest : ∀ a ∈ v.taken, a.generation = v.generation.getD 0 →
    ∃ b, v.prior a = some b ∧ a.position ≤ b.position
  shown : ∀ {a b}, a.turnId = turnId → v.prior a = some b → b ∈ v.taken ∧ b.key = a.key
  ordered : v.taken.Pairwise RunObservation.Before

namespace Observations

variable {v : Observations} {turnId : JsString}

theorem sound_fresh : Sound {} turnId where
  turn _ h := by cases h
  generations _ h := by cases h
  newest _ h := by cases h
  shown {a b} _ h := by
    unfold prior at h
    split at h <;> cases h
  ordered := .nil

theorem Sound.current (h : v.Sound turnId) {generation : Nat}
    (hgeneration : v.generation.getD 0 ≤ generation) :
    (v.current generation).Sound turnId ∧ (v.current generation).generation.getD 0 = generation := by
  unfold Observations.current
  split
  · rename_i hlt
    refine ⟨⟨h.turn, ?_, ?_, ?_, h.ordered⟩, rfl⟩
    · exact fun a ha => Nat.le_of_lt (Nat.lt_of_le_of_lt (h.generations a ha) hlt)
    · intro a ha heq
      exact absurd (h.generations a ha) (Nat.not_le_of_lt (heq ▸ hlt))
    · intro a b _ hprior
      unfold prior at hprior
      split at hprior <;> cases hprior
  · rename_i hle
    exact ⟨h, Nat.le_antisymm hgeneration (Nat.le_of_not_lt hle)⟩

theorem prior_show {value a : RunObservation} (hturn : a.turnId = value.turnId) :
    (v.withShown value).prior a = if a.key = value.key then some value else v.prior a := by
  obtain ⟨sessionId, turnId, runId, generation, body⟩ := value
  obtain ⟨sessionId', turnId', runId', generation', body'⟩ := a
  dsimp only at hturn
  subst hturn
  cases body with
  | childActivity state child turn call revision =>
    cases body' with
    | childActivity state' child' =>
      by_cases hchild : child' = child
      · subst hchild
        simp [withShown, prior, RunObservation.key]
      · simp [withShown, prior, RunObservation.key, InsertionMap.get_set_ne _ _ hchild, hchild]
    | _ => simp [withShown, prior, RunObservation.key]
  | _ =>
    cases body' <;> simp [withShown, prior, RunObservation.key]

theorem prior_key {a b : RunObservation} (h : a.key = b.key) : v.prior a = v.prior b := by
  obtain ⟨sessionId, turnId, runId, generation, body⟩ := a
  obtain ⟨sessionId', turnId', runId', generation', body'⟩ := b
  cases body <;> cases body' <;> simp_all [prior, RunObservation.key]

theorem show_rest (v : Observations) (value : RunObservation) :
    (v.withShown value).generation = v.generation ∧ (v.withShown value).taken = v.taken ++ [value] := by
  unfold withShown
  dsimp only
  split <;> exact ⟨rfl, rfl⟩

theorem Sound.show (h : v.Sound turnId) {value : RunObservation} (hturn : value.turnId = turnId)
    (hgeneration : v.generation.getD 0 = value.generation)
    (hnewer : ∀ b, v.prior value = some b → b.position < value.position) :
    (v.withShown value).Sound turnId := by
  obtain ⟨hgen, htaken⟩ := show_rest v value
  have hmem : ∀ {a}, a ∈ (v.withShown value).taken → a ∈ v.taken ∨ a = value := by
    intro a ha
    rw [htaken] at ha
    exact mem_snoc.mp ha
  have hbelow : ∀ a ∈ v.taken, a.generation = v.generation.getD 0 → a.key = value.key →
      a.position < value.position := by
    intro a ha hcurrent hkey
    obtain ⟨b, hb, hle⟩ := h.newest a ha hcurrent
    rw [prior_key hkey] at hb
    exact Nat.lt_of_le_of_lt hle (hnewer b hb)
  refine ⟨?_, ?_, ?_, ?_, ?_⟩
  · intro a ha
    obtain ha | rfl := hmem ha
    · exact h.turn a ha
    · exact hturn
  · intro a ha
    rw [hgen]
    obtain ha | rfl := hmem ha
    · exact h.generations a ha
    · exact Nat.le_of_eq hgeneration.symm
  · intro a ha hcurrent
    rw [hgen] at hcurrent
    obtain ha | rfl := hmem ha
    · rw [prior_show ((h.turn a ha).trans hturn.symm)]
      split
      · rename_i hkey
        exact ⟨value, rfl, Nat.le_of_lt (hbelow a ha hcurrent hkey)⟩
      · exact h.newest a ha hcurrent
    · rw [prior_show rfl, if_pos rfl]
      exact ⟨a, rfl, Nat.le_refl _⟩
  · intro a b ha hprior
    rw [prior_show (ha.trans hturn.symm)] at hprior
    rw [htaken]
    split at hprior
    · rename_i hkey
      cases hprior
      exact ⟨List.mem_append_right _ (List.mem_singleton_self _), hkey.symm⟩
    · obtain ⟨hin, hkey⟩ := h.shown ha hprior
      exact ⟨List.mem_append_left _ hin, hkey⟩
  · rw [htaken]
    refine pairwise_snoc h.ordered fun a ha hkey => ?_
    obtain hlt | heq := Nat.lt_or_eq_of_le (h.generations a ha)
    · exact .inl (hgeneration ▸ hlt)
    · exact .inr ⟨heq.trans hgeneration, hbelow a ha heq hkey⟩

end Observations

namespace RunObservationStore

variable {s : RunObservationStore}

def Sound (s : RunObservationStore) : Prop := ∀ turnId v, s.values.get turnId = some v → v.Sound turnId

theorem Sound.getD (h : s.Sound) (turnId : JsString) : ((s.values.get turnId).getD {}).Sound turnId := by
  cases hv : s.values.get turnId with
  | none => exact Observations.sound_fresh
  | some v => exact h turnId v hv

theorem Sound.set (h : s.Sound) {turnId : JsString} {v : Observations} (hv : v.Sound turnId) :
    Sound { s with values := s.values.set turnId v } := by
  intro j w hw
  rw [InsertionMap.get_set] at hw
  split at hw
  · rename_i hj
    cases hw
    exact hj ▸ hv
  · exact h j w hw

theorem Sound.receive (h : s.Sound) (value : RunObservation) : (s.receive value).Sound := by
  unfold RunObservationStore.receive
  dsimp only
  split
  · exact h
  · split
    · exact h
    · split
      · exact h
      · rename_i hgeneration
        split
        · exact h
        · rename_i hprior
          obtain ⟨hsound, hcurrent⟩ :=
            (h.getD value.turnId).current (Nat.le_of_not_lt hgeneration)
          refine h.set (hsound.show rfl hcurrent fun b hb => ?_)
          rw [hb] at hprior
          exact Nat.lt_of_not_le fun hle => hprior (decide_eq_true hle)

theorem Sound.apply (h : s.Sound) (op : Op) : (s.apply op).Sound := by
  cases op with
  | subscribe turnId listener =>
    change (s.subscribe turnId listener).Sound
    unfold RunObservationStore.subscribe
    split <;> exact h
  | unsubscribe turnId set listener =>
    change (s.unsubscribe turnId set listener).Sound
    unfold RunObservationStore.unsubscribe
    dsimp only
    split
    · exact fun j v hv => h j v (InsertionMap.get_delete_some hv)
    · exact h
  | receive value => exact h.receive value
  | toolProgress turnId now =>
    change (s.toolProgress turnId now).Sound
    unfold RunObservationStore.toolProgress
    split
    · exact h
    · have hv := h.getD turnId
      exact h.set ⟨hv.turn, hv.generations, hv.newest, hv.shown, hv.ordered⟩
  | reset => exact fun _ _ hv => by cases hv

theorem Sound.run (h : s.Sound) (ops : List Op) : (s.run ops).Sound := by
  unfold RunObservationStore.run
  induction ops generalizing s with
  | nil => exact h
  | cons op ops ih => exact ih (h.apply op)

theorem taken_ordered (ops : List Op) {turnId : JsString} {v : Observations}
    (hv : (RunObservationStore.run {} ops).values.get turnId = some v) :
    v.taken.Pairwise RunObservation.Before ∧
      ∀ a b, a.turnId = turnId → v.prior a = some b → b ∈ v.taken ∧ b.key = a.key := by
  have hstart : Sound {} := fun _ _ hv => nomatch hv
  have h := hstart.run ops turnId v hv
  exact ⟨h.ordered, fun _ _ => h.shown⟩

end RunObservationStore

/-! ## From the projector to the screen -/

/-- After every sequence of calls the index of the families is what the runs give, and what was
published of an entry, of one type, is in the order of its revisions and of its path times, all in one
generation. Nothing is published of a writer after its seal. An entry stays until its run is closed,
by a seal, by finished work, by the end of its turn, by a record that is not open or by a reset; where
it goes to keep the cache small or fresh, its session is read anew. And whatever arrives in which
order, neither view lets an observation follow a newer one while it has the turn. -/
theorem observations_ordered {ops : List ObservationOp} {o : RunObservations}
    (h : Reach RunObservations.observing ops o) :
    InsertionMap.Indexes o.families o.runs Active.writerId ∧
    o.hub.Pairwise HubCall.Ordered ∧
    (∀ o', Steps RunObservations.observing o o' → ∃ calls, o'.hub = o.hub ++ calls ∧
      ∀ tenant observation n writer,
        HubCall.publishObservation tenant observation n writer ∈ calls → writer ∉ o.sealed) ∧
    (∀ op o', RunObservations.observing.step o op o' →
      ∃ calls, RunObservations.StepSpec o op o' calls) ∧
    (∀ turns viewOps turnId run,
      ((RunObservationView.ofConversation turns).run viewOps).running.get turnId = some run →
      run.accepted.Pairwise RunObservation.Before) ∧
    ∀ storeOps turnId v, (RunObservationStore.run {} storeOps).values.get turnId = some v →
      v.taken.Pairwise RunObservation.Before ∧
        ∀ a b, a.turnId = turnId → v.prior a = some b → b ∈ v.taken ∧ b.key = a.key := by
  have hsound := RunObservations.sound_of_reach h
  refine ⟨hsound.indexed, hsound.ordered, ?_, ?_, ?_, ?_⟩
  · intro o' hlater
    obtain ⟨-, -, calls, hhub, hwriters⟩ := RunObservations.later_spec hsound hlater
    exact ⟨calls, hhub, fun _ _ _ _ hcall => hwriters hcall⟩
  · exact fun op o' hstep => (RunObservations.step_spec hsound hstep).2
  · exact fun turns viewOps _ _ hrun => RunObservationView.accepted_ordered turns viewOps hrun
  · exact fun storeOps _ _ hv => RunObservationStore.taken_ordered storeOps hv

/-- A run that is observed, swept, and observed again. -/
def sweptRun : List ObservationOp :=
  let scope : RuntimeObservationScope :=
    { tenantId := ascii "t", sessionId := ascii "s", turnId := ascii "u", runId := ascii "r",
      piSessionId := ascii "p", writerId := ascii "w", fencingToken := 1 }
  [.record { fact := .other, scope, occurredAt := some 0, partition := 0, offset := 1 } true fun _ => 0,
    .execution scope { status := .notApplicable, stage := .projector, sentAt := 0 } 0,
    .sweep fun _ => 300001,
    .record { fact := .other, scope, occurredAt := some 300001, partition := 0, offset := 2 } true
      fun _ => 300001,
    .execution scope { status := .notApplicable, stage := .projector, sentAt := 300001 } 300001]

theorem reach_sweptRun : Reach RunObservations.observing sweptRun
    (sweptRun.foldl RunObservations.apply {}) := by
  have h0 : Reach RunObservations.observing [] {} := .init rfl
  have h1 := h0.next (a := sweptRun[0]) ⟨fun _ => List.not_mem_nil, rfl⟩
  have h2 := h1.next (a := sweptRun[1]) ⟨trivial, rfl⟩
  have h3 := h2.next (a := sweptRun[2]) ⟨trivial, rfl⟩
  have h4 := h3.next (a := sweptRun[3]) ⟨fun _ => List.not_mem_nil, rfl⟩
  exact h4.next (a := sweptRun[4]) ⟨trivial, rfl⟩

/-- The revisions of the path to a VM start again after a sweep, in the same generation. -/
theorem revisions_repeat : ¬ ∀ (ops : List ObservationOp) (o : RunObservations),
    Reach RunObservations.observing ops o → o.hub.Pairwise fun c d => ∀ tenant a n w tenant' b n' w',
      c = .publishObservation tenant a n w → d = .publishObservation tenant' b n' w' →
      a.runId = b.runId → a.sessionId = b.sessionId → a.generation = b.generation → a.key = b.key →
      a.position < b.position := by
  intro h
  have hpairwise := h _ _ reach_sweptRun
  have hlt := (List.pairwise_iff_getElem.mp hpairwise) 0 3 (by decide) (by decide) (by decide)
    _ _ _ _ _ _ _ _ rfl rfl rfl rfl rfl rfl
  exact absurd hlt (by decide)

theorem observations_ordered_swept :
    InsertionMap.Indexes (sweptRun.foldl RunObservations.apply {}).families
      (sweptRun.foldl RunObservations.apply {}).runs Active.writerId ∧
    (sweptRun.foldl RunObservations.apply {}).hub.Pairwise HubCall.Ordered :=
  ⟨(observations_ordered reach_sweptRun).1, (observations_ordered reach_sweptRun).2.1⟩

end Web
end PiCloud
