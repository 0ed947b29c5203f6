import Mathlib.Data.List.Sort
import PiCloud.Lib.InsertionMap
import PiCloud.Lib.Run
import PiCloud.Lib.Slots

/-!
# Sandbox.RuntimeHealth

`RuntimeHealthMonitor` of `runtime-health-monitor.ts`, and what the controller says of a machine.

* `classify`, `evidence`, `observation`: what is known of a target, and since when.
* `started`, `pump`: which checks begin.
* `act`: everything that can happen between two steps of the event loop.
* `observations_dated`: in runs whose answers are dated no later than they were asked for, nothing is
  reported later than it was asked for, and checks are few and of different targets.
-/

namespace PiCloud
namespace Sandbox
namespace Health

open Lib

inductive Presence where
  | present | absent | unavailable
deriving DecidableEq

/-- `SandboxObservedState` -/
inductive ObservedState where
  | running | paused | pausing | stopped | error | unknown
deriving DecidableEq

inductive Execution where
  | ready | unavailable | notSafe
deriving DecidableEq

/-- `SandboxRuntimeObservation` -/
structure Observation where
  presence : Presence
  state : ObservedState
  execution : Option Execution := none
deriving DecidableEq

/-- What makes a target fail. -/
def Observation.lost (o : Observation) : Bool :=
  o.presence = .absent || o.execution = some .notSafe ||
    (o.presence = .present && (o.state = .stopped || o.state = .error))

/-- When the provider was asked, and how many targets there had been by then. -/
structure Asked where
  time : Int
  targets : Nat

structure Observed where
  value : Observation
  time : Int
  asked : Int
deriving DecidableEq

/-- `Target`; `generation` tells the targets of one id apart. -/
structure Target where
  generation : Nat
  due : Int
  successAt : Int := 0
  successAsked : Int := 0
  pending : Bool := false
  observed : Option Observed := none

/-- Where a check waits. -/
inductive Stage where
  | observing (asked : Asked)
  | probing (asked : Asked)
  | observingAgain (asked : Asked)
  | ending

def Stage.asked : Stage → Option Asked
  | .observing asked | .probing asked | .observingAgain asked => some asked
  | .ending => none

structure Check where
  id : Nat
  generation : Nat
  stage : Stage := .ending

structure Reservation where
  environmentId : Nat
  tenantId : Nat
  userId : Nat
  allocationId : Nat
deriving DecidableEq

/-- `ManagedDevelopmentEnvironment`; `target` is the execution identity of its handle. -/
structure Machine where
  reservation : Reservation
  target : Option Nat
  observedState : ObservedState
  observedAt : Int := 0
  failure : Bool := false
  ipAddress : Option Nat := none

/-- A target that was failed: its number, and how many there had been when the provider was asked. -/
structure Failed where
  generation : Nat
  targets : Nat

structure State where
  clock : Int := 0
  generations : Nat := 0
  targets : InsertionMap Nat Target := {}
  active : List Check := []
  inventory : InsertionMap Nat Observation := {}
  inventoryAt : Int := 0
  inventoryAsked : Asked := ⟨0, 0⟩
  inventoryDue : Int := 0
  inventoryPending : Option Asked := none
  closed : Bool := false
  failed : List Failed := []
  machines : InsertionMap Nat Machine := {}

namespace State

/-- Asked now. -/
def asked (s : State) : Asked := ⟨s.clock, s.generations⟩

def update (s : State) (id : Nat) (f : Target → Target) : State :=
  { s with targets := s.targets.update id f }

/-- `none` where it returns false. -/
def evidence (s : State) (id : Nat) (observedAt asked : Int) : Option State := do
  let target ← s.targets.get id
  if s.clock + 5000 < observedAt ∨ observedAt < s.clock - 45000 ∨ observedAt ≤ target.successAt then
    none
  else some (s.update id fun t => { t with
    successAt := observedAt
    successAsked := asked
    due := max t.due (min s.clock observedAt + 15000) })

def observation (s : State) (id : Nat) : Option Observed := do
  let target ← s.targets.get id
  if (target.observed.map Observed.time).getD 0 < target.successAt ∧
      s.clock - target.successAt ≤ 45000 then
    some ⟨⟨.present, .running, some .ready⟩, target.successAt, target.successAsked⟩
  else
    let observed ← target.observed
    if s.clock - observed.time ≤ 45000 then some observed else none

def current (s : State) (c : Check) : Bool :=
  !s.closed && (s.targets.get c.id).any (·.generation = c.generation)

def classify (s : State) (c : Check) (o : Observation) (asked : Asked) : State :=
  if s.current c then
    { s.update c.id fun t => { t with observed := some ⟨o, s.clock, asked.time⟩ } with
      failed := s.failed ++ if o.lost then [⟨c.generation, asked.targets⟩] else [] }
  else s

/-- Where a check goes on after the first observation. -/
def afterObserved (s : State) (c : Check) (o : Observation) : Stage :=
  if s.current c ∧ o.lost = false ∧ o.presence = .present ∧ o.state = .running ∧
      ((s.targets.get c.id).all fun t => !(0 < t.successAt && s.clock - t.successAt < 15000)) then
    .probing s.asked
  else .ending

/-- The inventory entry that a check uses in place of an exact observation. -/
def cached (s : State) (id : Nat) : Option Observation :=
  if s.clock - s.inventoryAt < 30000 then s.inventory.get id else none

/-- `#check` of a target, up to its first wait. -/
def start (s : State) (id : Nat) : State :=
  match s.targets.get id with
  | none => s
  | some target =>
    let s := s.update id fun t => { t with pending := true, due := s.clock + 15000 }
    let c : Check := { id, generation := target.generation }
    match s.cached id with
    | some o =>
      { s.classify c o s.inventoryAsked with
        active := s.active ++ [{ c with stage := s.afterObserved c o }] }
    | none => { s with active := s.active ++ [{ c with stage := .observing s.asked }] }

def due (s : State) : List (Nat × Target) :=
  (s.targets.entries.filter fun e => !e.2.pending && e.2.due ≤ s.clock).insertionSort
    fun a b => a.2.due ≤ b.2.due

/-- The targets whose checks begin, at most `concurrency` with those under way. -/
def started (concurrency : Nat) (s : State) : List Nat :=
  if s.closed then []
  else (s.due.map Prod.fst).take (concurrency - s.active.length)

def pump (concurrency : Nat) (s : State) : State := (s.started concurrency).foldl start s

def add (s : State) (id : Nat) : State :=
  if s.targets.get id = none then
    { s with
      targets := s.targets.set id { generation := s.generations, due := s.clock }
      generations := s.generations + 1 }
  else s

/-- With whether the pump follows. -/
def refresh (s : State) (ids : List Nat) : State × Bool :=
  if s.closed then (s, false)
  else
    let s := ids.foldl add s
    let s := { s with targets := s.targets.filter fun id _ => id ∈ ids }
    if ids = [] then (s, false)
    else
      let s :=
        if s.inventoryPending.isNone ∧ s.inventoryDue ≤ s.clock then
          { s with inventoryDue := s.clock + 30000, inventoryPending := some s.asked }
        else s
      (s, s.inventoryAt ≠ 0 || s.inventoryPending.isNone)

def setStage (s : State) (k : Nat) (c : Check) (stage : Stage) : State :=
  { s with active := s.active.set k { c with stage } }

/-- The state that is reported of a machine, and its address. -/
def developmentEnvironmentObservation (s : State) (owned : Bool) (r : Reservation) :
    Option (ObservedState × Option Nat) := do
  let m ← s.machines.get r.environmentId
  if owned ∧ m.reservation = r ∧ m.failure = false then
    let state : ObservedState :=
      match m.target with
      | none => .unknown
      | some target =>
        match (s.observation target).filter fun o => m.observedAt ≤ o.time with
        | some o =>
          if o.value.presence = .present ∧ (o.value.state = .running ∨ o.value.state = .paused) then
            o.value.state
          else .unknown
        | none => if s.clock - m.observedAt ≤ 45000 then m.observedState else .unknown
    some (state, if state = .unknown then none else m.ipAddress)
  else none

end State

inductive Action where
  | tick (now : Int)
  /-- `none` when the targets cannot be told. -/
  | refresh (targets : Option (List Nat))
  | inventoryReply (reply : Option (InsertionMap Nat Observation))
  /-- A report of what was observed at `asked`. -/
  | evidence (id : Nat) (observedAt asked : Int)
  | observed (k : Nat) (reply : Option Observation)
  | probed (k : Nat) (ok : Bool)
  /-- A check has ended, with the failing of its target. -/
  | finish (k : Nat)
  | close
  | clear
  /-- The controller has created, inspected, paused or resumed a machine. -/
  | machine (m : Machine)
  | quarantine (environmentId : Nat)
  | forget (environmentId : Nat)

/-- What happens before the pump, and whether the pump follows. -/
def part (s : State) : Action → Option (State × Bool)
  | .tick now => some ({ s with clock := now }, false)
  | .refresh none => some (s, false)
  | .refresh (some ids) => some (s.refresh ids)
  | .inventoryReply reply => do
    let asked ← s.inventoryPending
    let s := { s with inventoryPending := none }
    match reply with
    | some inventory =>
      some ({ s with inventory, inventoryAt := s.clock, inventoryAsked := asked }, true)
    | none => some ({ s with inventory := {} }, true)
  | .evidence id observedAt asked => do
    guard (asked ≤ s.clock)
    some ((s.evidence id observedAt asked).getD s, false)
  | .observed k reply => do
    let c ← s.active[k]?
    match c.stage, reply with
    | .observing asked, some o =>
      some ((s.classify c o asked).setStage k c (s.afterObserved c o), false)
    | .observingAgain asked, some o => some ((s.classify c o asked).setStage k c .ending, false)
    | .observing _, none | .observingAgain _, none => some (s.setStage k c .ending, false)
    | _, _ => none
  | .probed k ok => do
    let c ← s.active[k]?
    match c.stage with
    | .probing asked =>
      if s.current c then
        if ok then
          some (((s.evidence c.id s.clock asked.time).getD s).setStage k c .ending, false)
        else some (s.setStage k c (.observingAgain s.asked), false)
      else some (s.setStage k c .ending, false)
    | _ => none
  | .finish k => do
    let c ← s.active[k]?
    match c.stage with
    | .ending =>
      some ({ s with
        active := s.active.eraseIdx k
        targets := s.targets.update c.id fun t =>
          if t.generation = c.generation then
            { t with pending := false, due := max t.due (s.clock + 15000) }
          else t }, true)
    | _ => none
  | .close => some ({ s with closed := true }, false)
  | .clear => do
    guard (s.closed ∧ s.active = [] ∧ s.inventoryPending.isNone)
    some ({ s with targets := {} }, false)
  | .machine m =>
    some ({ s with
      machines := s.machines.set m.reservation.environmentId { m with observedAt := s.clock } }, false)
  | .quarantine id =>
    some ({ s with machines := s.machines.update id fun m => { m with failure := true } }, false)
  | .forget id => some ({ s with machines := s.machines.delete id }, false)

def act (concurrency : Nat) (s : State) (a : Action) : Option State :=
  (part s a).map fun (t, pumps) => if pumps then t.pump concurrency else t

def monitor (concurrency : Nat) : System State Action where
  init s := s = {}
  step s a t := act concurrency s a = some t

/-! ## Careful runs -/

/-- The answer that a check waits for comes while the clock shows no more than when it was asked. -/
def Prompt (s : State) (k : Nat) : Prop :=
  ∀ c ∈ s.active[k]?, s.current c → ∀ asked ∈ c.stage.asked, s.clock ≤ asked.time

/-- A check of `id` that uses the inventory uses what was asked now, and loses no target to an inventory
that was asked before there was the target. -/
def Fresh (s : State) (id : Nat) : Prop :=
  ∀ o ∈ s.cached id, s.clock ≤ s.inventoryAsked.time ∧
    (o.lost → ∀ t ∈ s.targets.get id, t.generation < s.inventoryAsked.targets)

instance (s : State) (k : Nat) : Decidable (Prompt s k) := by unfold Prompt; infer_instance

instance (s : State) (id : Nat) : Decidable (Fresh s id) := by unfold Fresh; infer_instance

/-- What a step takes in is dated no later than it was asked for, and no target comes back while an
earlier check of its id is under way. -/
def Takes (s : State) : Action → Prop
  | .evidence _ observedAt asked => observedAt ≤ asked
  | .observed k (some _) => Prompt s k
  | .probed k true => Prompt s k
  | .refresh (some ids) => ∀ c ∈ s.active, c.id ∈ ids → s.targets.get c.id ≠ none
  | _ => True

instance (s : State) (a : Action) : Decidable (Takes s a) := by
  unfold Takes
  split <;> infer_instance

def Careful (concurrency : Nat) (s : State) (a : Action) : Prop :=
  Takes s a ∧ ∀ t ∈ (part s a), t.2 = true → ∀ id ∈ t.1.started concurrency, Fresh t.1 id

instance (n : Nat) (s : State) (a : Action) : Decidable (Careful n s a) := by
  unfold Careful
  infer_instance

/-! ## What every step keeps -/

structure Dated (t : Target) : Prop where
  success : t.successAt ≤ t.successAsked
  observed : ∀ o ∈ t.observed, o.time ≤ o.asked

structure Inv (concurrency : Nat) (s : State) : Prop where
  dated : ∀ id t, s.targets.get id = some t → Dated t
  born : ∀ id t, s.targets.get id = some t → t.generation < s.generations
  checked : ∀ c ∈ s.active, ∀ t, s.targets.get c.id = some t →
    t.generation = c.generation ∧ t.pending = true
  asked : ∀ c ∈ s.active, ∀ asked ∈ c.stage.asked, c.generation < asked.targets
  failed : ∀ f ∈ s.failed, f.generation < f.targets
  few : s.active.length ≤ concurrency
  distinct : (s.active.map Check.id).Nodup

variable {n : Nat} {s t : State} {id k : Nat} {c : Check}

/-- What was under way is all that is, and the targets are what they were or have changed in what no
check tells. -/
theorem Inv.update (h : Inv n s) {f : Target → Target}
    (hf : ∀ t, s.targets.get id = some t → Dated (f t) ∧ (f t).generation = t.generation ∧
      ((f t).pending = t.pending ∨ ∀ c ∈ s.active, c.id ≠ id)) : Inv n (s.update id f) := by
  have hget : ∀ j t', (s.update id f).targets.get j = some t' → ∃ t, s.targets.get j = some t ∧
      (t' = t ∨ j = id ∧ t' = f t) := by
    intro j t' hj
    unfold State.update at hj
    dsimp only at hj
    rw [InsertionMap.get_update] at hj
    split at hj
    · obtain ⟨t, ht, rfl⟩ := Option.map_eq_some_iff.mp hj
      exact ⟨t, ht, .inr ⟨‹_›, rfl⟩⟩
    · exact ⟨t', hj, .inl rfl⟩
  refine { h with dated := ?_, born := ?_, checked := ?_ }
  · intro j t' hj
    obtain ⟨t, ht, rfl | ⟨rfl, rfl⟩⟩ := hget j t' hj
    · exact h.dated _ _ ht
    · exact (hf t ht).1
  · intro j t' hj
    obtain ⟨t, ht, rfl | ⟨rfl, rfl⟩⟩ := hget j t' hj
    · exact h.born _ _ ht
    · rw [(hf t ht).2.1]
      exact h.born _ _ ht
  · intro c hc t' hj
    obtain ⟨t, ht, rfl | ⟨rfl, rfl⟩⟩ := hget _ t' hj
    · exact h.checked c hc _ ht
    · obtain ⟨-, hgeneration, hpending⟩ := hf t ht
      rw [hgeneration, hpending.resolve_right fun hne => hne c hc rfl]
      exact h.checked c hc _ ht

theorem current_iff : s.current c = true ↔
    s.closed = false ∧ ∃ t, s.targets.get c.id = some t ∧ t.generation = c.generation := by
  simp [State.current, Option.any_eq_true]

theorem Inv.current (h : Inv n s) (hc : s.current c = true) : c.generation < s.generations := by
  obtain ⟨-, t, ht, heq⟩ := current_iff.mp hc
  rw [← heq]
  exact h.born _ _ ht

theorem Inv.evidence (h : Inv n s) {observedAt asked : Int} (hd : observedAt ≤ asked) :
    Inv n ((s.evidence id observedAt asked).getD s) := by
  cases hs : s.evidence id observedAt asked with
  | none => exact h
  | some t =>
    obtain ⟨target, -, hs⟩ := bind_some hs
    split at hs
    · cases hs
    · cases hs
      exact h.update fun t ht => ⟨⟨hd, (h.dated _ _ ht).observed⟩, rfl, .inl rfl⟩

theorem Inv.classify (h : Inv n s) {o : Observation} {asked : Asked}
    (hd : s.current c = true → s.clock ≤ asked.time)
    (hlost : s.current c = true → o.lost = true → c.generation < asked.targets) :
    Inv n (s.classify c o asked) := by
  unfold State.classify
  split
  · rename_i hc
    have hupdate : Inv n (s.update c.id fun t =>
        { t with observed := some ⟨o, s.clock, asked.time⟩ }) := h.update
      fun t ht => ⟨⟨(h.dated _ _ ht).success, by simpa using hd hc⟩, rfl, .inl rfl⟩
    refine { hupdate with failed := fun f hf => ?_ }
    obtain hf | hf := List.mem_append.mp hf
    · exact h.failed f hf
    · split at hf
      · obtain rfl := List.mem_singleton.mp hf
        exact hlost hc ‹_›
      · cases hf
  · exact h

theorem Inv.setStage (h : Inv n s) {stage : Stage} (hk : s.active[k]? = some c)
    (hasked : ∀ asked ∈ stage.asked, c.generation < asked.targets) :
    Inv n (s.setStage k c stage) := by
  have hmem : ∀ d ∈ s.active.set k { c with stage }, d ∈ s.active ∨ d = { c with stage } :=
    fun d hd => List.mem_or_eq_of_mem_set hd
  refine { h with checked := ?_, asked := ?_, few := ?_, distinct := ?_ }
  · intro d hd t ht
    obtain hd | rfl := hmem d hd
    · exact h.checked d hd t ht
    · exact h.checked c (List.mem_of_getElem? hk) t ht
  · intro d hd
    obtain hd | rfl := hmem d hd
    · exact h.asked d hd
    · exact hasked
  · exact (List.length_set ..).trans_le h.few
  · have hids : (s.active.set k { c with stage }).map Check.id = s.active.map Check.id :=
      Slots.map_set hk rfl
    exact hids.symm ▸ h.distinct

theorem Inv.afterObserved (h : Inv n s) (c : Check) (o : Observation) :
    ∀ asked ∈ (s.afterObserved c o).asked, c.generation < asked.targets := by
  unfold State.afterObserved
  split
  · rename_i hc
    rintro _ ⟨⟩
    exact h.current hc.1
  · rintro _ ⟨⟩

/-! ## The pump -/

/-- A target whose check can begin. -/
def Ready (s : State) (id : Nat) : Prop :=
  (∃ t, s.targets.get id = some t ∧ t.pending = false) ∧ Fresh s id

/-- The checks of other targets do not matter. -/
theorem Ready.start {j : Nat} (h : Ready s j) (hne : j ≠ id) : Ready (s.start id) j := by
  have hframe : (s.start id).targets.get j = s.targets.get j ∧ (s.start id).cached j = s.cached j ∧
      (s.start id).clock = s.clock ∧ (s.start id).inventoryAsked = s.inventoryAsked := by
    unfold State.start State.classify
    split
    · exact ⟨rfl, rfl, rfl, rfl⟩
    · dsimp only
      split
      · split <;> exact ⟨by simp [State.update, InsertionMap.get_update, hne], rfl, rfl, rfl⟩
      · exact ⟨by simp [State.update, InsertionMap.get_update, hne], rfl, rfl, rfl⟩
  obtain ⟨hget, hcached, hclock, hasked⟩ := hframe
  unfold Ready Fresh
  rw [hget, hcached, hclock, hasked]
  exact h

theorem start_active (h : Ready s id) :
    (s.start id).active.map Check.id = s.active.map Check.id ++ [id] := by
  obtain ⟨⟨t, ht, -⟩, -⟩ := h
  unfold State.start
  rw [ht]
  dsimp only
  split <;> simp [State.update]

theorem Inv.push (h : Inv n s) (hid : c.id ∉ s.active.map Check.id) (hlt : s.active.length < n)
    (htarget : ∀ t, s.targets.get c.id = some t → t.generation = c.generation ∧ t.pending = true)
    (hasked : ∀ asked ∈ c.stage.asked, c.generation < asked.targets) :
    Inv n { s with active := s.active ++ [c] } := by
  refine { h with checked := ?_, asked := ?_, few := ?_, distinct := ?_ }
  · intro d hd
    obtain hd | hd := List.mem_append.mp hd
    · exact h.checked d hd
    · exact List.mem_singleton.mp hd ▸ htarget
  · intro d hd
    obtain hd | hd := List.mem_append.mp hd
    · exact h.asked d hd
    · exact List.mem_singleton.mp hd ▸ hasked
  · simpa [Nat.succ_le_iff] using hlt
  · rw [List.map_append]
    exact h.distinct.append (List.nodup_singleton _) (by simpa using hid)

theorem classify_active (s : State) (c : Check) (o : Observation) (asked : Asked) (l : List Check) :
    { s.classify c o asked with active := l } = { s with active := l }.classify c o asked := by
  unfold State.classify
  change _ = if s.current c then _ else _
  split <;> rfl

theorem Inv.start (h : Inv n s) (hready : Ready s id) (hlt : s.active.length < n) :
    Inv n (s.start id) := by
  obtain ⟨⟨t, ht, hpending⟩, hfresh⟩ := hready
  have hid : id ∉ s.active.map Check.id := by
    rintro hmem
    obtain ⟨c, hc, rfl⟩ := List.mem_map.mp hmem
    exact absurd (h.checked c hc t ht).2 (by simp [hpending])
  have hupdate : Inv n (s.update id fun t =>
      { t with pending := true, due := s.clock + 15000 }) := h.update
    fun t ht => ⟨⟨(h.dated _ _ ht).success, (h.dated _ _ ht).observed⟩, rfl,
      .inr fun c hc heq => hid (List.mem_map.mpr ⟨c, hc, heq⟩)⟩
  have hnow : ∀ u, (s.update id fun t => { t with pending := true, due := s.clock + 15000 }).targets.get
      id = some u → u.generation = t.generation ∧ u.pending = true := by
    intro u hu
    rw [State.update, InsertionMap.get_update, if_pos rfl, ht] at hu
    cases hu
    exact ⟨rfl, rfl⟩
  unfold State.start
  rw [ht]
  dsimp only
  split
  · rename_i o ho
    obtain ⟨hd, hlost⟩ := hfresh o ho
    rw [classify_active]
    exact (hupdate.push hid hlt hnow (hupdate.afterObserved _ o)).classify (fun _ => hd)
      fun _ hl => hlost hl t ht
  · exact hupdate.push hid hlt hnow fun _ hasked => by
      cases hasked
      exact h.born _ _ ht

theorem Inv.starts {ids : List Nat} (h : Inv n s) (hids : ids.Nodup)
    (hready : ∀ id ∈ ids, Ready s id) (hlen : s.active.length + ids.length ≤ n) :
    Inv n (ids.foldl State.start s) := by
  induction ids generalizing s with
  | nil => exact h
  | cons id ids ih =>
    rw [List.nodup_cons] at hids
    rw [List.length_cons] at hlen
    have hid := hready id List.mem_cons_self
    refine ih (h.start hid (by omega)) hids.2 (fun j hj => ?_) ?_
    · exact (hready j (List.mem_cons_of_mem _ hj)).start fun heq => hids.1 (heq ▸ hj)
    · have hlength := congrArg List.length (start_active hid)
      simp only [List.length_map, List.length_append, List.length_singleton] at hlength
      omega

theorem Inv.pump (h : Inv n s) (hfresh : ∀ id ∈ s.started n, Fresh s id) : Inv n (s.pump n) := by
  have hfew := h.few
  unfold State.pump
  by_cases hclosed : s.closed = true
  · simpa [State.started, hclosed] using h
  · have hstarted : s.started n = (s.due.map Prod.fst).take (n - s.active.length) := if_neg hclosed
    have hperm : s.due.Perm (s.targets.entries.filter fun e => !e.2.pending && e.2.due ≤ s.clock) :=
      List.perm_insertionSort _ _
    rw [hstarted] at hfresh ⊢
    refine h.starts ((List.take_sublist _ _).nodup ?_) (fun id hid => ⟨?_, hfresh id hid⟩) ?_
    · rw [(hperm.map _).nodup_iff]
      exact s.targets.nodup.sublist (List.filter_sublist.map _)
    · obtain ⟨⟨_, t⟩, he, rfl⟩ := List.mem_map.mp (List.mem_of_mem_take hid)
      obtain ⟨hmem, hdue⟩ := List.mem_filter.mp (hperm.mem_iff.mp he)
      exact ⟨t, InsertionMap.mem_entries.mp hmem, by simp_all⟩
    · rw [List.length_take]
      omega

/-! ## The targets -/

theorem Inv.add (h : Inv n s) (hid : s.targets.get id = none → ∀ c ∈ s.active, c.id ≠ id) :
    Inv n (s.add id) := by
  unfold State.add
  split
  · rename_i hnone
    have hget : ∀ j t, (s.targets.set id { generation := s.generations, due := s.clock }).get j =
        some t → j = id ∧ t = { generation := s.generations, due := s.clock } ∨
          s.targets.get j = some t := by
      intro j t hj
      rw [InsertionMap.get_set] at hj
      split at hj
      · cases hj
        exact .inl ⟨‹_›, rfl⟩
      · exact .inr hj
    refine { h with dated := ?_, born := ?_, checked := ?_ }
    · intro j t hj
      obtain ⟨-, rfl⟩ | hj := hget j t hj
      · exact ⟨le_rfl, by simp⟩
      · exact h.dated j t hj
    · intro j t hj
      obtain ⟨-, rfl⟩ | hj := hget j t hj
      · exact Nat.lt_succ_self _
      · exact (h.born j t hj).trans (Nat.lt_succ_self _)
    · intro c hc t hj
      obtain ⟨heq, -⟩ | hj := hget _ t hj
      · exact absurd heq (hid hnone c hc)
      · exact h.checked c hc t hj
  · exact h

theorem Inv.adds {ids : List Nat} (h : Inv n s)
    (hids : ∀ c ∈ s.active, c.id ∈ ids → s.targets.get c.id ≠ none) : Inv n (ids.foldl State.add s) := by
  induction ids generalizing s with
  | nil => exact h
  | cons id ids ih =>
    have hkept : (s.add id).active = s.active ∧
        ∀ j, s.targets.get j ≠ none → (s.add id).targets.get j ≠ none := by
      unfold State.add
      split
      · refine ⟨rfl, fun j hj => ?_⟩
        dsimp only
        rw [InsertionMap.get_set]
        split
        · rintro ⟨⟩
        · exact hj
      · exact ⟨rfl, fun _ hj => hj⟩
    refine ih (h.add fun hnone c hc heq => ?_) fun c hc hmem => ?_
    · exact hids c hc (heq ▸ List.mem_cons_self) (heq ▸ hnone)
    · rw [hkept.1] at hc
      exact hkept.2 _ (hids c hc (List.mem_cons_of_mem _ hmem))

/-- With fewer targets. -/
theorem Inv.without (h : Inv n s) {targets : InsertionMap Nat Target}
    (hget : ∀ j t, targets.get j = some t → s.targets.get j = some t) :
    Inv n { s with targets := targets } :=
  { h with
    dated := fun j t hj => h.dated j t (hget j t hj)
    born := fun j t hj => h.born j t (hget j t hj)
    checked := fun c hc t hj => h.checked c hc t (hget _ t hj) }

theorem Inv.refresh {ids : List Nat} (h : Inv n s)
    (hids : ∀ c ∈ s.active, c.id ∈ ids → s.targets.get c.id ≠ none) : Inv n (s.refresh ids).1 := by
  have hadds := (h.adds hids).without fun j t hj =>
    InsertionMap.get_filter_some (p := fun id _ => decide (id ∈ ids)) hj
  unfold State.refresh
  split
  · exact h
  · dsimp only
    split
    · exact hadds
    · dsimp only
      split
      · exact { hadds with }
      · exact hadds

theorem Inv.erase (h : Inv n s) (k : Nat) : Inv n { s with active := s.active.eraseIdx k } := by
  have hsub := List.eraseIdx_sublist s.active k
  exact { h with
    checked := fun c hc => h.checked c (hsub.mem hc)
    asked := fun c hc => h.asked c (hsub.mem hc)
    few := hsub.length_le.trans h.few
    distinct := h.distinct.sublist (hsub.map _) }

theorem Inv.part (h : Inv n s) {a : Action} (ha : Takes s a) {pumps : Bool}
    (hs : part s a = some (t, pumps)) : Inv n t := by
  cases a with
  | tick now | close | machine m | quarantine id | forget id =>
    cases hs
    exact { h with }
  | refresh targets =>
    cases targets with
    | none =>
      cases hs
      exact h
    | some ids =>
      obtain rfl : (s.refresh ids).1 = t := congrArg Prod.fst (Option.some.inj hs)
      exact h.refresh ha
  | inventoryReply reply =>
    obtain ⟨asked, -, hs⟩ := bind_some hs
    cases reply <;>
    · cases hs
      exact { h with }
  | evidence id observedAt asked =>
    cases (guard_some hs).2
    exact h.evidence ha
  | observed k reply =>
    obtain ⟨c, hk, hs⟩ := bind_some hs
    have hclassify : ∀ o asked, reply = some o → c.stage.asked = some asked →
        Inv n (s.classify c o asked) ∧ (s.classify c o asked).active[k]? = some c := by
      rintro o asked rfl hstage
      refine ⟨h.classify (fun hc => ha c hk hc _ hstage) fun _ _ =>
        h.asked c (List.mem_of_getElem? hk) _ hstage, ?_⟩
      unfold State.classify
      split <;> exact hk
    split at hs
    · rename_i hstage _
      cases hs
      have hc := hclassify _ _ rfl (by rw [hstage]; rfl)
      exact hc.1.setStage hc.2 (h.afterObserved c _)
    · rename_i hstage _
      cases hs
      have hc := hclassify _ _ rfl (by rw [hstage]; rfl)
      exact hc.1.setStage hc.2 fun _ => nofun
    · cases hs
      exact h.setStage hk nofun
    · cases hs
      exact h.setStage hk nofun
    · cases hs
  | probed k ok =>
    obtain ⟨c, hk, hs⟩ := bind_some hs
    split at hs
    · rename_i asked hstage
      split at hs
      · rename_i hc
        split at hs
        · rename_i hok
          cases hs
          subst hok
          refine (h.evidence (ha c hk hc asked (by rw [hstage]; rfl))).setStage ?_ nofun
          cases hs : s.evidence c.id s.clock asked.time with
          | none => exact hk
          | some u =>
            obtain ⟨_, -, hs⟩ := bind_some hs
            split at hs <;> cases hs
            exact hk
        · cases hs
          refine h.setStage hk ?_
          rintro _ ⟨⟩
          exact h.current hc
      · cases hs
        exact h.setStage hk nofun
    · cases hs
  | finish k =>
    obtain ⟨c, hk, hs⟩ := bind_some hs
    split at hs
    · cases hs
      refine (h.erase k).update fun u hu => ?_
      split
      · refine ⟨⟨(h.dated _ _ hu).success, (h.dated _ _ hu).observed⟩, rfl, .inr fun d hd heq => ?_⟩
        exact Slots.ne_of_mem_eraseIdx hk h.distinct hd heq
      · exact ⟨h.dated _ _ hu, rfl, .inl rfl⟩
    · cases hs
  | clear =>
    cases (guard_some hs).2
    exact h.without fun _ _ hj => absurd hj (InsertionMap.get_empty _ _)

theorem careful_inv {as : List Action} (h : Reach ((monitor n).guard (Careful n)) as s) : Inv n s := by
  refine Reach.invariant (Inv n) ?_ ?_ h
  · rintro _ rfl
    exact ⟨fun _ _ hj => absurd hj (InsertionMap.get_empty _ _),
      fun _ _ hj => absurd hj (InsertionMap.get_empty _ _), List.forall_mem_nil _,
      List.forall_mem_nil _, List.forall_mem_nil _, Nat.zero_le n, List.nodup_nil⟩
  · rintro s a u hinv ⟨⟨htakes, hfresh⟩, hs⟩
    obtain ⟨⟨t, pumps⟩, hpart, rfl⟩ := Option.map_eq_some_iff.mp hs
    have ht := hinv.part htakes hpart
    dsimp only
    split
    · rename_i hpumps
      exact ht.pump (hfresh _ hpart hpumps)
    · exact ht

theorem Inv.observation (h : Inv n s) {o : Observed} (ho : s.observation id = some o) :
    o.time ≤ o.asked := by
  obtain ⟨t, ht, ho⟩ := bind_some ho
  have hdated := h.dated id t ht
  split at ho
  · cases ho
    exact hdated.success
  · obtain ⟨o', ho', ho⟩ := bind_some ho
    split at ho <;> cases ho
    exact hdated.observed _ ho'

/-- A state that is reported is the one that was recorded, or comes from an observation that is dated no
earlier than that. -/
theorem reported {owned : Bool} {r : Reservation} {st : ObservedState} {ip : Option Nat}
    (h : s.developmentEnvironmentObservation owned r = some (st, ip)) (hst : st ≠ .unknown) :
    ∃ m, s.machines.get r.environmentId = some m ∧ (st = m.observedState ∨
      ∃ target ∈ m.target, ∃ o, s.observation target = some o ∧ o.value.state = st ∧
        m.observedAt ≤ o.time) := by
  obtain ⟨m, hm, h⟩ := bind_some h
  refine ⟨m, hm, ?_⟩
  split at h
  · dsimp only at h
    rw [Option.some_inj, Prod.mk.injEq] at h
    replace h := h.1
    split at h
    · exact absurd h.symm hst
    · rename_i target htarget
      split at h
      · rename_i o ho
        obtain ⟨ho, hat⟩ := Option.filter_eq_some_iff.mp ho
        split at h
        · exact .inr ⟨target, htarget, o, ho, h, of_decide_eq_true hat⟩
        · exact absurd h.symm hst
      · split at h
        · exact .inl h.symm
        · exact absurd h.symm hst
  · cases h

def machineOne (observedState : ObservedState) : Machine where
  reservation := ⟨1, 2, 3, 4⟩
  target := some 7
  observedState

/-- The evidence is asked for, and comes, when the clock shows the same. -/
def promptly : List Action :=
  [.tick 100000, .refresh (some [7, 8]), .inventoryReply none, .machine (machineOne .paused),
    .observed 0 (some ⟨.present, .paused, none⟩), .observed 1 (some ⟨.absent, .unknown, none⟩)]

/-- A machine is paused between the reading of its state and the answer. -/
def pausedMeanwhile : List Action :=
  [.tick 100000, .refresh (some [7]), .inventoryReply none, .tick 100001, .machine (machineOne .paused),
    .tick 100002, .observed 0 (some ⟨.present, .running, none⟩)]

end Health
end Sandbox
end PiCloud
