import PiCloud.Lib.History
import PiCloud.Lib.Run
import PiCloud.Protocol.ImageAttachment

/-!
# Supervisor.WorldState

`PiSessionWorldStateController` of `pi-sandbox-continuity.ts`, over the runs of one conversation.

* `Controller`, `material`: what a run knows of its world, and the changes that it announces.
* `act`: runs, and captures that are under way beside each other.
* `Tells`: what a captured state should announce, by the states that were captured before.
* `world_changes_told`: it does, in runs whose captures are recorded over the state they looked at, and
  never record an unavailable sandbox that is not the stored one.
-/

namespace PiCloud
namespace Supervisor
namespace World

open Lib Protocol

abbrev Digest := { s : JsString // isSha256 s = true }

inductive Status where
  | inactive | active | unavailable
deriving DecidableEq

/-- `PiRuntimeWorldState` -/
structure WorldState where
  status : Status
  continuityId : Option JsString
  environmentSha256 : Digest
  workspaceBindingSha256 : Digest
  toolPolicySha256 : Digest
deriving DecidableEq

/-- What the document holds. -/
structure Stored where
  schemaVersion : Nat
  status : Status
  continuityId : Option JsString
  environmentSha256 : JsString
  workspaceBindingSha256 : JsString
  toolPolicySha256 : JsString

def runtimeWorldState (s : Stored) : Option WorldState :=
  if h : s.schemaVersion = 3 ∧ isSha256 s.environmentSha256 = true ∧
      isSha256 s.workspaceBindingSha256 = true ∧ isSha256 s.toolPolicySha256 = true then
    some ⟨s.status, s.continuityId, ⟨_, h.2.1⟩, ⟨_, h.2.2.1⟩, ⟨_, h.2.2.2⟩⟩
  else none

def WorldState.stored (w : WorldState) : Stored :=
  ⟨3, w.status, w.continuityId, w.environmentSha256.1, w.workspaceBindingSha256.1,
    w.toolPolicySha256.1⟩

@[simp] theorem runtimeWorldState_stored (w : WorldState) :
    runtimeWorldState w.stored = some w := by
  simp [runtimeWorldState, WorldState.stored, w.environmentSha256.2, w.workspaceBindingSha256.2,
    w.toolPolicySha256.2]

/-- `PiSandboxContinuity` -/
structure Continuity where
  continuityId : JsString
  warmReuse : Bool
  environmentSha256 : Digest
  workspaceBindingSha256 : Digest
  toolPolicySha256 : Digest

inductive CustomType where
  | sandboxReset | workspaceChanged | environmentChanged | toolPolicyChanged
deriving DecidableEq

/-- `changeSha256` is the hash of these. -/
structure Entry where
  customType : CustomType
  previous : Option WorldState
  current : WorldState
deriving DecidableEq

structure Controller where
  continuity : Continuity
  status : Status
  previous : Option WorldState
  messagesAppendedDuringRun : List Entry := []

def create (stored : Option Stored) (continuity : Continuity) : Controller where
  continuity
  status := if continuity.warmReuse then .active else .inactive
  previous := stored.bind runtimeWorldState

namespace Controller

def recordActive (c : Controller) (continuity : Option (JsString × Bool)) : Controller :=
  { c with
    status := .active
    continuity := match continuity with
      | some (continuityId, warmReuse) => { c.continuity with continuityId, warmReuse }
      | none => c.continuity }

def recordUnavailable (c : Controller) : Controller := { c with status := .unavailable }

def current (c : Controller) : WorldState where
  status := c.status
  continuityId :=
    if c.status = .inactive then c.previous.bind (·.continuityId) else c.continuity.continuityId
  environmentSha256 := c.continuity.environmentSha256
  workspaceBindingSha256 := c.continuity.workspaceBindingSha256
  toolPolicySha256 := c.continuity.toolPolicySha256

end Controller

/-- What changed, in the order of the entries. -/
def material (previous : Option WorldState) (current : WorldState) : List CustomType :=
  match previous with
  | none => []
  | some p =>
    (if p.workspaceBindingSha256 = current.workspaceBindingSha256 ∧ p.continuityId ≠ none ∧
        current.status = .active ∧ p.continuityId ≠ current.continuityId then [.sandboxReset]
      else []) ++
    (if p.workspaceBindingSha256 ≠ current.workspaceBindingSha256 then [.workspaceChanged] else []) ++
    (if p.environmentSha256 ≠ current.environmentSha256 then [.environmentChanged] else []) ++
    (if p.toolPolicySha256 ≠ current.toolPolicySha256 then [.toolPolicyChanged] else [])

def messages (previous : Option WorldState) (current : WorldState) : List Entry :=
  (material previous current).map fun customType => { customType, previous, current }

/-! ## Runs -/

/-- A capture that is under way: before its commit, or after it. -/
structure Capture where
  previous : Option WorldState
  current : WorldState
  committed : Bool := false

structure Captured where
  state : WorldState
  entries : List Entry

/-- `captured` are the states that were captured, with what each appended. -/
structure State where
  stored : Option Stored := none
  entries : List Entry := []
  controller : Option Controller := none
  captures : List Capture := []
  captured : List Captured := []

inductive Action where
  /-- A run begins; what was under way in the one before ends. -/
  | run (continuity : Continuity)
  | recordActive (continuity : Option (JsString × Bool))
  | recordUnavailable
  | capture
  | commit (i : Nat)
  | commitFailed (i : Nat)
  /-- After `commit`. -/
  | resume (i : Nat)

def State.last (s : State) : Option WorldState := s.stored.bind runtimeWorldState

def act (s : State) : Action → Option State
  | .run continuity =>
    some { s with controller := some (create s.stored continuity), captures := [] }
  | .recordActive continuity => do
    let c ← s.controller
    return { s with controller := some (c.recordActive continuity) }
  | .recordUnavailable => do
    let c ← s.controller
    return { s with controller := some c.recordUnavailable }
  | .capture => do
    let c ← s.controller
    if c.previous = some c.current then
      return { s with captured := s.captured ++ [⟨c.current, []⟩] }
    else return { s with captures := s.captures ++ [{ previous := c.previous, current := c.current }] }
  | .commit i => do
    let x ← s.captures[i]?
    guard (x.committed = false)
    let entries := messages x.previous x.current
    return { s with
      stored := some x.current.stored
      entries := s.entries ++ entries
      captures := s.captures.set i { x with committed := true }
      captured := s.captured ++ [⟨x.current, entries⟩] }
  | .commitFailed i => do
    let x ← s.captures[i]?
    guard (x.committed = false)
    return { s with captures := s.captures.eraseIdx i }
  | .resume i => do
    let x ← s.captures[i]?
    guard (x.committed = true)
    let c ← s.controller
    return { s with
      captures := s.captures.eraseIdx i
      controller := some { c with
        messagesAppendedDuringRun :=
          c.messagesAppendedDuringRun ++ messages x.previous x.current
        previous := some x.current } }

def conversation : System State Action where
  init s := s = {}
  step s a t := act s a = some t

/-! ## What is told -/

def lastActive (captured : List Captured) : Option JsString :=
  (captured.reverse.find? fun c => c.state.status = .active).bind (·.state.continuityId)

theorem lastActive_snoc (captured : List Captured) (c : Captured) :
    lastActive (captured ++ [c]) =
      if c.state.status = .active then c.state.continuityId else lastActive captured := by
  unfold lastActive
  rw [List.reverse_append, List.reverse_singleton, List.singleton_append, List.find?_cons]
  by_cases h : c.state.status = .active <;> simp [h]

/-- What a captured state announces, given those before it. -/
structure Tells (before : List Captured) (c : Captured) : Prop where
  once : (c.entries.map Entry.customType).Nodup
  between : ∀ e ∈ c.entries, e.previous = before.getLast?.map Captured.state ∧ e.current = c.state
  workspace : .workspaceChanged ∈ c.entries.map Entry.customType ↔
    ∃ b ∈ before.getLast?, b.state.workspaceBindingSha256 ≠ c.state.workspaceBindingSha256
  environment : .environmentChanged ∈ c.entries.map Entry.customType ↔
    ∃ b ∈ before.getLast?, b.state.environmentSha256 ≠ c.state.environmentSha256
  toolPolicy : .toolPolicyChanged ∈ c.entries.map Entry.customType ↔
    ∃ b ∈ before.getLast?, b.state.toolPolicySha256 ≠ c.state.toolPolicySha256
  reset : .sandboxReset ∈ c.entries.map Entry.customType ↔ c.state.status = .active ∧
    (∃ id ∈ lastActive before, some id ≠ c.state.continuityId) ∧
      ∀ b ∈ before.getLast?, b.state.workspaceBindingSha256 = c.state.workspaceBindingSha256

theorem material_nodup (previous : Option WorldState) (current : WorldState) :
    (material previous current).Nodup := by
  unfold material
  cases previous with
  | none => exact List.nodup_nil
  | some p =>
    dsimp only
    split <;> split <;> split <;> split <;> decide

theorem map_messages (previous : Option WorldState) (current : WorldState) :
    (messages previous current).map Entry.customType = material previous current := by
  simp [messages, Function.comp_def]

theorem tells_messages {before : List Captured} {previous : Option WorldState}
    (hlast : previous = before.getLast?.map Captured.state)
    (hkept : previous.bind (·.continuityId) = lastActive before) (current : WorldState) :
    Tells before ⟨current, messages previous current⟩ := by
  have hmade : ∀ e ∈ messages previous current, e.previous = previous ∧ e.current = current := by
    intro e he
    obtain ⟨t, -, rfl⟩ := List.mem_map.mp he
    exact ⟨rfl, rfl⟩
  rw [hlast] at hkept
  cases hb : before.getLast? with
  | none =>
    rw [hb] at hlast hkept
    obtain rfl : before = [] := by simpa using hb
    subst hlast
    constructor <;> simp [messages, material, lastActive]
  | some b =>
    rw [hb] at hlast hkept
    subst hlast
    have hid : b.state.continuityId = lastActive before := hkept
    constructor
    case once =>
      rw [map_messages]
      exact material_nodup _ _
    case between => simpa [hb] using hmade
    case reset =>
      have hmem : .sandboxReset ∈ material (some b.state) current ↔
          b.state.workspaceBindingSha256 = current.workspaceBindingSha256 ∧
            b.state.continuityId ≠ none ∧ current.status = .active ∧
              b.state.continuityId ≠ current.continuityId := by simp [material]
      rw [map_messages, Option.map_some, hmem, ← hid]
      cases b.state.continuityId with
      | none => simp
      | some id => simp [hb, and_comm, and_assoc]
    all_goals
      rw [map_messages]
      simp [material, hb]

theorem messages_self (current : WorldState) : messages (some current) current = [] := by
  simp [messages, material]

/-! ## What every step keeps -/

/-- A step that looks at the state that is stored: a capture that finds no change, and a commit. A
commit of an unavailable sandbox keeps the stored one. -/
def Careful (s : State) : Action → Prop
  | .capture => ∀ c ∈ s.controller, c.previous = some c.current → c.previous = s.last
  | .commit i => ∀ x ∈ s.captures[i]?, x.previous = s.last ∧
    (x.current.status = .unavailable → x.current.continuityId = x.previous.bind (·.continuityId))
  | _ => True

structure Inv (s : State) : Prop where
  told : Always Tells s.captured
  last : s.last = s.captured.getLast?.map Captured.state
  kept : s.last.bind (·.continuityId) = lastActive s.captured
  entries : s.entries = s.captured.flatMap Captured.entries
  inactive : ∀ x ∈ s.captures, x.current.status = .inactive →
    x.current.continuityId = x.previous.bind (·.continuityId)

theorem Inv.capture {s t : State} (h : Inv s) (hc : Careful s .capture)
    (hs : act s .capture = some t) : Inv t := by
  obtain ⟨c, hcontroller, hs⟩ := bind_some hs
  split at hs
  · rename_i hsame
    cases hs
    have hlast := hc c hcontroller hsame
    rw [hsame] at hlast
    refine { h with told := h.told.snoc ?_, last := ?_, kept := ?_, entries := ?_ }
    · have htells := tells_messages h.last h.kept c.current
      rwa [← hlast, messages_self] at htells
    · simpa [State.last] using hlast.symm
    · rw [lastActive_snoc, ← h.kept]
      change s.last.bind _ = _
      split
      · rw [← hlast]
        rfl
      · rfl
    · simp [h.entries]
  · cases hs
    refine { h with inactive := ?_ }
    intro x hx hstatus
    obtain hx | rfl := mem_snoc.mp hx
    · exact h.inactive x hx hstatus
    · exact if_pos hstatus

theorem Inv.commit {s t : State} {i : Nat} (h : Inv s) (hc : Careful s (.commit i))
    (hs : act s (.commit i) = some t) : Inv t := by
  obtain ⟨x, hx, hs⟩ := bind_some hs
  obtain ⟨-, hs⟩ := guard_some hs
  cases hs
  obtain ⟨hprevious, hunavailable⟩ := hc x hx
  have hlast : State.last { s with stored := some x.current.stored } = some x.current := by
    simp [State.last]
  refine
    { told := h.told.snoc ?_
      last := by simp [State.last]
      kept := ?_
      entries := by simp [h.entries]
      inactive := ?_ }
  · rw [hprevious]
    exact tells_messages h.last h.kept x.current
  · rw [lastActive_snoc, ← h.kept, ← hprevious]
    change (State.last { s with stored := some x.current.stored }).bind _ = _
    rw [hlast]
    cases hstatus : x.current.status with
    | inactive => exact h.inactive x (List.mem_of_getElem? hx) hstatus
    | active => rfl
    | unavailable => exact hunavailable hstatus
  · intro y hy hstatus
    obtain hy | rfl := List.mem_or_eq_of_mem_set hy
    · exact h.inactive y hy hstatus
    · exact h.inactive x (List.mem_of_getElem? hx) hstatus

theorem Inv.act {s t : State} {a : Action} (h : Inv s) (hc : Careful s a) (hs : act s a = some t) :
    Inv t := by
  have herase (i : Nat) : ∀ x ∈ s.captures.eraseIdx i, x.current.status = .inactive →
      x.current.continuityId = x.previous.bind (·.continuityId) :=
    fun x hx => h.inactive x (List.mem_of_mem_eraseIdx hx)
  cases a with
  | run continuity =>
    cases hs
    exact { h with inactive := by nofun }
  | recordActive continuity =>
    obtain ⟨c, -, hs⟩ := bind_some hs
    cases hs
    exact { h with }
  | recordUnavailable =>
    obtain ⟨c, -, hs⟩ := bind_some hs
    cases hs
    exact { h with }
  | capture => exact h.capture hc hs
  | commit i => exact h.commit hc hs
  | commitFailed i =>
    obtain ⟨x, -, hs⟩ := bind_some hs
    obtain ⟨-, hs⟩ := guard_some hs
    cases hs
    exact { h with inactive := herase i }
  | resume i =>
    obtain ⟨x, -, hs⟩ := bind_some hs
    obtain ⟨-, hs⟩ := guard_some hs
    obtain ⟨c, -, hs⟩ := bind_some hs
    cases hs
    exact { h with inactive := herase i }

theorem world_changes_told {as : List Action} {s : State}
    (h : Reach (conversation.guard Careful) as s) :
    Always Tells s.captured ∧ s.entries = s.captured.flatMap Captured.entries := by
  have hinv := h.invariant Inv
    (by rintro _ rfl; exact ⟨.nil, rfl, rfl, rfl, by nofun⟩)
    (by rintro _ _ _ hi ⟨hcareful, hs⟩; exact hi.act hcareful hs)
  exact ⟨hinv.told, hinv.entries⟩

instance (s : State) (a : Action) : Decidable (Careful s a) := by
  unfold Careful
  cases a <;> infer_instance

def world (id : String) (warmReuse : Bool) : Continuity :=
  let digest : Digest := ⟨List.replicate 64 0x61, by decide⟩
  ⟨ascii id, warmReuse, digest, digest, digest⟩

def activated : List Action :=
  [.run (world "x" true), .capture, .commit 0, .resume 0, .run (world "y" false), .capture, .commit 0,
    .resume 0, .recordActive none]

def oneCapture : List Action := activated ++ [Action.capture, .commit 0]

def twoCaptures : List Action := activated ++ [Action.capture, .capture, .commit 0, .commit 1]

theorem world_changes_told_once : ∃ s, Reach (conversation.guard Careful) oneCapture s ∧
    (Always Tells s.captured ∧ s.entries = s.captured.flatMap Captured.entries) ∧
      s.entries.map Entry.customType = [.sandboxReset] := by
  obtain ⟨s, hs⟩ : ∃ s, oneCapture.foldlM (guarded act Careful) {} = some s := ⟨_, rfl⟩
  have hrun : Reach (conversation.guard Careful) oneCapture s :=
    Reach.guarded (fun _ _ _ h => h) rfl hs
  have hentries : (oneCapture.foldlM (guarded act Careful) {}).map (fun s => s.entries.map Entry.customType) =
      some [.sandboxReset] := by decide +kernel
  rw [hs] at hentries
  exact ⟨s, hrun, world_changes_told hrun, Option.some.inj hentries⟩

theorem reset_told_twice : ∃ s, Reach conversation twoCaptures s ∧ ¬ Always Tells s.captured := by
  obtain ⟨s, hs⟩ : ∃ s, twoCaptures.foldlM act {} = some s := ⟨_, rfl⟩
  refine ⟨s, (Reach.init (S := conversation) rfl).foldlM (fun _ _ _ h => h) _ hs, fun htold => ?_⟩
  have hlast : ((twoCaptures.foldlM act {}).bind fun s => s.captured.getLast?.map fun c =>
      decide (.sandboxReset ∈ c.entries.map Entry.customType ∧
        lastActive s.captured.dropLast = c.state.continuityId)) = some true := by decide +kernel
  rw [hs] at hlast
  obtain ⟨c, hc, hlast⟩ := Option.map_eq_some_iff.mp hlast
  obtain ⟨hreset, hactive⟩ := of_decide_eq_true hlast
  have htells := htold s.captured.dropLast c [] (List.dropLast_append_getLast? c hc).symm
  obtain ⟨-, ⟨id, hid, hne⟩, -⟩ := htells.reset.mp hreset
  exact hne (hid ▸ hactive)

end World
end Supervisor
end PiCloud
