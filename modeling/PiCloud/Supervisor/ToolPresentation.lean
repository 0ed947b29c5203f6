import PiCloud.Lib.InsertionMap
import PiCloud.Lib.Json

/-!
# Supervisor.ToolPresentation

Two readings of a native commit: what is shown of its Tools, and which execution it hands off.

* `NativeTask`, `EntryRecord`, `ToolSlot`: the native records, as far as they are read.
* `prepareToolPresentation`: the starts and completions to show, as references into the commit.
* `durableToolIntent`: the execution of a task that the commit admits, from its first write.
* `Presents`: one start for each call that came to run, one completion for each that settled.
* `SameArguments`: when what is shown is what is handed off.
-/

namespace PiCloud
namespace Supervisor
namespace Tools

open Lib

/-! ## Native records -/

inductive TaskKind where
  | tool
  | other (name : JsString)
deriving DecidableEq

inductive Phase where
  | execute
  | other (name : JsString)
deriving DecidableEq

structure Checkpoint where
  phase : Option Phase := none
  arguments : Option Json := none

structure NativeTask where
  id : Nat
  conversationId : Nat
  kind : TaskKind
  abortRequested : Bool := false
  /-- `input.callId` -/
  callId : Option JsString
  /-- `state.checkpoint` -/
  checkpoint : Option Checkpoint

inductive Part where
  | text (text : JsString)
  | image (mimeType : JsString)

inductive Message where
  | toolResult (toolCallId : JsString) (isError : Bool) (details : Option Json) (content : List Part)
  | other

structure EntryRecord where
  id : Nat
  conversationId : Nat
  byTaskId : Option Nat := none
  /-- `pi.tool-result` -/
  isToolResult : Bool
  model : List Message := []

inductive Write where
  | task (value : NativeTask)
  | entry (value : EntryRecord)
  | other

inductive SlotStatus where
  | pending
  | running
  | done
deriving DecidableEq

structure ToolSlot where
  callId : JsString
  name : JsString
  taskId : Option Nat := none
  status : SlotStatus
  entry : Option Nat := none
deriving DecidableEq

/-- A changed document; `live` is the conversation of a `pi.live` one. -/
structure DocumentChange where
  live : Option Nat := none
  before : Option (List ToolSlot) := none
  after : Option (List ToolSlot) := none

structure DurableSessionCommit where
  writes : List Write
  documents : List DocumentChange := []

/-! ## What is shown -/

inductive ToolCallId where
  | task (id : Nat)
  | entry (id : Nat)
deriving DecidableEq

/-- `tool.started`: the input is `value.state.checkpoint.arguments` of the write `ordinal`. -/
structure Started where
  toolCallId : ToolCallId
  toolName : JsString
  ordinal : Nat
deriving DecidableEq

inductive PartSource where
  | text (index stop : Nat)
  | image (index : Nat) (mimeType : JsString)
deriving DecidableEq

inductive Output where
  | missing
  | parts (ordinal modelIndex : Nat) (details : Bool) (parts : List PartSource)
deriving DecidableEq

/-- `tool.completed` -/
structure Completed where
  toolCallId : ToolCallId
  failed : Bool
  output : Output
deriving DecidableEq

inductive Description where
  | started (d : Started)
  | completed (d : Completed)
deriving DecidableEq

inductive PresentationError where
  /-- Tool display start requires its same-commit native execution intent -/
  | noIntent
  /-- Unsettled Tool view has no native identity -/
  | noIdentity
deriving DecidableEq

def members : Json → Option (List (JsString × Json))
  | .obj members => some members
  | _ => none

/-- `state.checkpoint.arguments`, an object -/
def NativeTask.arguments (t : NativeTask) : Option (List (JsString × Json)) :=
  (t.checkpoint.bind Checkpoint.arguments).bind members

/-- The arguments of an admitted execution. -/
def executeArguments (t : NativeTask) : Option (List (JsString × Json)) :=
  if t.kind ≠ .tool ∨ t.abortRequested = true ∨ t.checkpoint.bind Checkpoint.phase ≠ some .execute then
    none
  else t.arguments

def Write.task? : Write → Option NativeTask
  | .task t => some t
  | _ => none

def Write.entryRecord? : Write → Option EntryRecord
  | .entry e => some e
  | _ => none

def taskWrites (commit : DurableSessionCommit) : List (NativeTask × Nat) :=
  commit.writes.zipIdx.filterMap fun w => w.1.task?.map fun t => (t, w.2)

def entryWrites (commit : DurableSessionCommit) : List (EntryRecord × Nat) :=
  commit.writes.zipIdx.filterMap fun w => w.1.entryRecord?.map fun e => (e, w.2)

section Prepare

variable (commit : DurableSessionCommit) (conversationId : Nat)

def live : Option DocumentChange := commit.documents.find? fun d => d.live = some conversationId

def slots (tools : List ToolSlot) : InsertionMap JsString ToolSlot :=
  .ofList (tools.map fun slot => (slot.callId, slot))

def previous : InsertionMap JsString ToolSlot :=
  slots (((live commit conversationId).bind DocumentChange.before).getD [])

def current : InsertionMap JsString ToolSlot :=
  slots (((live commit conversationId).bind DocumentChange.after).getD [])

def tasks : InsertionMap Nat (NativeTask × Nat) :=
  .ofList (((taskWrites commit).filter fun w => w.1.conversationId = conversationId).map fun w =>
    (w.1.id, w))

def entries : InsertionMap Nat (EntryRecord × Nat) :=
  .ofList (((entryWrites commit).filter fun w =>
    w.1.conversationId = conversationId ∧ w.1.isToolResult = true).map fun w => (w.1.id, w))

/-- The slots that came to run. -/
def begun : List ToolSlot :=
  ((current commit conversationId).entries.map Prod.snd).filter fun slot =>
    slot.status = .running ∧
      ((previous commit conversationId).get slot.callId).map ToolSlot.status ≠ some .running

def start (slot : ToolSlot) : Except PresentationError Started :=
  match slot.taskId.bind (tasks commit conversationId).get with
  | some (task, ordinal) =>
    if (executeArguments task).isSome then
      .ok { toolCallId := .task task.id, toolName := slot.name, ordinal := ordinal }
    else .error .noIntent
  | none => .error .noIntent

def Message.isResultOf (callId : JsString) : Message → Bool
  | .toolResult toolCallId .. => toolCallId = callId
  | .other => false

/-- How the call of a slot that was there before has ended, and the entry of its result. -/
def endOf (slot : ToolSlot) : Option (ToolSlot × Option Nat) :=
  if slot.status = .done then none
  else
    match (current commit conversationId).get slot.callId with
    | some next => if next.status = .done then some (next, next.entry) else none
    | none =>
      some (slot, ((entries commit conversationId).entries.find? fun e =>
        e.2.1.model.any (Message.isResultOf slot.callId)).map Prod.fst)

def ended : InsertionMap JsString (ToolSlot × Option Nat) :=
  .ofList (
    (previous commit conversationId).entries.filterMap (fun e =>
      (endOf commit conversationId e.2).map fun r => (e.2.callId, r)) ++
    (current commit conversationId).entries.filterMap (fun e =>
      if e.2.status = .done ∧ (previous commit conversationId).get e.2.callId = none then
        some (e.2.callId, e.2, e.2.entry)
      else none))

def Message.isToolResult : Message → Bool
  | .toolResult .. => true
  | .other => false

def Part.source (index : Nat) : Part → PartSource
  | .text t => .text index t.length
  | .image mime => .image index mime

/-- The first result of an entry, with its index. -/
def firstResult (source : EntryRecord × Nat) : Option (Bool × Output) :=
  (source.1.model.zipIdx.find? fun m => m.1.isToolResult).bind fun m =>
    match m.1 with
    | .toolResult _ isError details content =>
      some (isError, .parts source.2 m.2 details.isSome (content.mapIdx Part.source))
    | .other => none

def finish (slot : Option ToolSlot) (source : Option (EntryRecord × Nat)) :
    Except PresentationError Completed :=
  let result := source.bind firstResult
  let owner := (source.bind fun s => s.1.byTaskId).bind (tasks commit conversationId).get
  let taskId := (slot.bind ToolSlot.taskId).or
    (owner.bind fun t => if t.1.kind = .tool then some t.1.id else none)
  match taskId, source with
  | none, none => .error .noIdentity
  | some id, _ => .ok
    { toolCallId := .task id, failed := (result.map Prod.fst).getD true
      output := (result.map Prod.snd).getD .missing }
  | none, some (entry, _) => .ok
    { toolCallId := .entry entry.id, failed := (result.map Prod.fst).getD true
      output := (result.map Prod.snd).getD .missing }

def shownEntry (e : ToolSlot × Option Nat) : Option (EntryRecord × Nat) :=
  e.2.bind (entries commit conversationId).get

def resultEntries : List Nat :=
  (ended commit conversationId).entries.filterMap fun e =>
    (shownEntry commit conversationId e.2).map fun source => source.1.id

def unshown : List (EntryRecord × Nat) :=
  ((entries commit conversationId).entries.map Prod.snd).filter fun source =>
    source.1.id ∉ resultEntries commit conversationId ∧ source.1.model.any Message.isToolResult

def Message.toolCallId : Message → Option JsString
  | .toolResult toolCallId .. => some toolCallId
  | .other => none

def finishEntry (source : EntryRecord × Nat) : Except PresentationError Completed :=
  let callId := source.1.model.findSome? Message.toolCallId
  finish commit conversationId
    ((callId.bind (current commit conversationId).get).or
      (callId.bind (previous commit conversationId).get)) (some source)

def prepareToolPresentation : Except PresentationError (List Description) := do
  let starts ← (begun commit conversationId).mapM (start commit conversationId)
  let ends ← (ended commit conversationId).entries.mapM fun e =>
    finish commit conversationId (some e.2.1) (shownEntry commit conversationId e.2)
  let rest ← (unshown commit conversationId).mapM (finishEntry commit conversationId)
  return starts.map .started ++ (ends ++ rest).map .completed

end Prepare

/-- `resolveDurableDisplay`: the input that a start refers to. -/
def Started.input (commit : DurableSessionCommit) (d : Started) : Option (List (JsString × Json)) :=
  (commit.writes[d.ordinal]?.bind Write.task?).bind NativeTask.arguments

/-! ## What is handed off -/

/-- `DurableCommitIndex` -/
def commitIndex (commit : DurableSessionCommit) : InsertionMap Nat NativeTask :=
  .ofFirst ((taskWrites commit).map fun w => (w.1.id, w.1))

structure Intent where
  callId : JsString
  arguments : List (JsString × Json)

/-- `none`: Tool handoff requires its admitted native execution intent -/
def durableToolIntent (commit : DurableSessionCommit) (taskId : Nat) : Option Intent := do
  let task ← (commitIndex commit).get taskId
  let members ← executeArguments task
  let callId ← task.callId
  return { callId := callId, arguments := members }

/-! ## Writes of a task -/

def firstWrite (commit : DurableSessionCommit) (id : Nat) : Option NativeTask :=
  ((taskWrites commit).find? fun w => w.1.id = id).map Prod.fst

def lastWrite (commit : DurableSessionCommit) (conversationId id : Nat) : Option NativeTask :=
  ((taskWrites commit).reverse.find? fun w =>
    w.1.conversationId = conversationId ∧ w.1.id = id).map Prod.fst

variable {commit : DurableSessionCommit} {conversationId : Nat}

theorem commitIndex_get (id : Nat) : (commitIndex commit).get id = firstWrite commit id := by
  unfold commitIndex firstWrite
  rw [InsertionMap.get_ofFirst, List.find?_map, Option.map_map]
  rfl

theorem tasks_get {id : Nat} {w : NativeTask × Nat}
    (h : (tasks commit conversationId).get id = some w) :
    w.1.id = id ∧ commit.writes[w.2]? = some (.task w.1) ∧
      lastWrite commit conversationId id = some w.1 := by
  unfold tasks at h
  rw [InsertionMap.get_ofList, ← List.map_reverse, ← List.filter_reverse, List.find?_map, List.find?_filter,
    Option.map_map] at h
  obtain ⟨v, hfind, rfl⟩ := Option.map_eq_some_iff.mp h
  have hv := List.find?_some hfind
  simp only [decide_eq_true_eq, Function.comp] at hv
  refine ⟨hv.2, ?_, ?_⟩
  · obtain ⟨⟨x, n⟩, hx, heq⟩ := List.mem_filterMap.mp (List.mem_reverse.mp (List.mem_of_find?_eq_some hfind))
    obtain ⟨t, ht, rfl⟩ := Option.map_eq_some_iff.mp heq
    have hget := List.mem_zipIdx_iff_getElem?.mp hx
    dsimp only at ht hget ⊢
    unfold Write.task? at ht
    split at ht
    · cases ht
      exact hget
    · cases ht
  · unfold lastWrite
    rw [Option.map_eq_some_iff]
    refine ⟨v, ?_, rfl⟩
    rw [← hfind]
    congr 1
    funext w
    simp [Function.comp]

/-! ## Starts -/

theorem start_ok {slot : ToolSlot} {d : Started} (h : start commit conversationId slot = .ok d) :
    ∃ id last members, slot.taskId = some id ∧ lastWrite commit conversationId id = some last ∧
      executeArguments last = some members ∧ d.toolCallId = .task id ∧ d.toolName = slot.name ∧
      d.input commit = some members := by
  unfold start at h
  split at h
  · rename_i task ordinal hget
    split at h
    · rename_i hsome
      cases h
      obtain ⟨id, hid, htask⟩ := Option.bind_eq_some_iff.mp hget
      obtain ⟨hsame, hwrite, hlast⟩ := tasks_get htask
      obtain ⟨members, hmembers⟩ := Option.isSome_iff_exists.mp hsome
      refine ⟨id, task, members, hid, hlast, hmembers, congrArg ToolCallId.task hsame, rfl, ?_⟩
      unfold Started.input
      dsimp only
      rw [hwrite]
      unfold executeArguments at hmembers
      split at hmembers
      · cases hmembers
      · exact hmembers
    · cases h
  · cases h

/-! ## Slots -/

theorem slots_callId {tools : List ToolSlot} {k : JsString} {slot : ToolSlot}
    (h : (slots tools).get k = some slot) : slot.callId = k := by
  unfold slots at h
  rw [InsertionMap.get_ofList] at h
  obtain ⟨e, hfind, rfl⟩ := Option.map_eq_some_iff.mp h
  obtain ⟨slot, -, rfl⟩ := List.mem_map.mp (List.mem_reverse.mp (List.mem_of_find?_eq_some hfind))
  simpa using List.find?_some hfind

theorem slots_calls (tools : List ToolSlot) :
    ((slots tools).entries.map Prod.snd).map ToolSlot.callId = (slots tools).entries.map Prod.fst := by
  rw [List.map_map]
  refine List.map_congr_left fun e he => ?_
  exact slots_callId (InsertionMap.mem_entries.mp he)

def Begins (commit : DurableSessionCommit) (conversationId : Nat) (k : JsString) : Prop :=
  ∃ slot, (current commit conversationId).get k = some slot ∧ slot.status = .running ∧
    ∀ old, (previous commit conversationId).get k = some old → old.status ≠ .running

theorem nodup_begun : ((begun commit conversationId).map ToolSlot.callId).Nodup := by
  unfold begun current
  refine List.Nodup.sublist (List.filter_sublist.map _) ?_
  rw [slots_calls]
  exact (slots _).nodup

theorem mem_begun {slot : ToolSlot} :
    slot ∈ begun commit conversationId ↔
      (current commit conversationId).get slot.callId = some slot ∧ slot.status = .running ∧
        ∀ old, (previous commit conversationId).get slot.callId = some old → old.status ≠ .running := by
  unfold begun
  rw [List.mem_filter, decide_eq_true_eq]
  refine and_congr ⟨fun h => ?_, fun h => ?_⟩ (and_congr_right fun _ => ?_)
  · obtain ⟨⟨k, v⟩, he, rfl⟩ := List.mem_map.mp h
    have hget := InsertionMap.mem_entries.mp he
    have hk : v.callId = k := slots_callId hget
    dsimp only
    rw [hk]
    exact hget
  · exact List.mem_map.mpr ⟨(slot.callId, slot), InsertionMap.mem_entries.mpr h, rfl⟩
  · constructor
    · intro hne old hold heq
      rw [hold, Option.map_some, heq] at hne
      exact hne rfl
    · intro hall hsome
      obtain ⟨old, hold, hstatus⟩ := Option.map_eq_some_iff.mp hsome
      exact hall old hold hstatus

theorem begins_iff {k : JsString} :
    k ∈ (begun commit conversationId).map ToolSlot.callId ↔ Begins commit conversationId k := by
  rw [List.mem_map]
  constructor
  · rintro ⟨slot, hslot, rfl⟩
    exact ⟨slot, mem_begun.mp hslot⟩
  · rintro ⟨slot, hget, hrest⟩
    have hk : slot.callId = k := slots_callId hget
    subst hk
    exact ⟨slot, mem_begun.mpr ⟨hget, hrest⟩, rfl⟩

/-! ## Ends -/

/-- The call has settled: it is done or gone, or came as done. -/
def Settles (commit : DurableSessionCommit) (conversationId : Nat) (k : JsString) : Prop :=
  (∃ old, (previous commit conversationId).get k = some old ∧ old.status ≠ .done ∧
    ∀ next, (current commit conversationId).get k = some next → next.status = .done) ∨
  (previous commit conversationId).get k = none ∧
    ∃ slot, (current commit conversationId).get k = some slot ∧ slot.status = .done

def LastSlot (commit : DurableSessionCommit) (conversationId : Nat) (k : JsString) (slot : ToolSlot) : Prop :=
  (current commit conversationId).get k = some slot ∨
    (current commit conversationId).get k = none ∧ (previous commit conversationId).get k = some slot

theorem endOf_some {slot : ToolSlot} {r : ToolSlot × Option Nat}
    (hslot : (previous commit conversationId).get slot.callId = some slot)
    (h : endOf commit conversationId slot = some r) :
    Settles commit conversationId slot.callId ∧ LastSlot commit conversationId slot.callId r.1 := by
  unfold endOf at h
  split at h
  · cases h
  · rename_i hrunning
    split at h
    · rename_i next hnext
      split at h
      · rename_i hdone
        cases h
        refine ⟨.inl ⟨slot, hslot, hrunning, fun other hother => ?_⟩, .inl hnext⟩
        rw [hnext] at hother
        cases hother
        exact hdone
      · cases h
    · rename_i hgone
      cases h
      refine ⟨.inl ⟨slot, hslot, hrunning, fun other hother => ?_⟩, .inr ⟨hgone, hslot⟩⟩
      rw [hgone] at hother
      cases hother

theorem endOf_settles {slot : ToolSlot} (hrunning : slot.status ≠ .done)
    (h : ∀ next, (current commit conversationId).get slot.callId = some next → next.status = .done) :
    ∃ r, endOf commit conversationId slot = some r := by
  unfold endOf
  rw [if_neg hrunning]
  split
  · rename_i next hnext
    rw [if_pos (h next hnext)]
    exact ⟨_, rfl⟩
  · exact ⟨_, rfl⟩

/-- The ends of calls that were there before, and of those that came as done. -/
def ends (commit : DurableSessionCommit) (conversationId : Nat) :
    List (JsString × ToolSlot × Option Nat) :=
  (previous commit conversationId).entries.filterMap (fun e =>
    (endOf commit conversationId e.2).map fun r => (e.2.callId, r)) ++
  (current commit conversationId).entries.filterMap (fun e =>
    if e.2.status = .done ∧ (previous commit conversationId).get e.2.callId = none then
      some (e.2.callId, e.2, e.2.entry)
    else none)

theorem mem_ends {k : JsString} {r : ToolSlot × Option Nat} (h : (k, r) ∈ ends commit conversationId) :
    Settles commit conversationId k ∧ LastSlot commit conversationId k r.1 := by
  obtain h | h := List.mem_append.mp h
  · obtain ⟨⟨j, slot⟩, he, heq⟩ := List.mem_filterMap.mp h
    obtain ⟨r, hr, hpair⟩ := Option.map_eq_some_iff.mp heq
    cases hpair
    have hget := InsertionMap.mem_entries.mp he
    have hj : slot.callId = j := slots_callId hget
    exact endOf_some (hj ▸ hget) hr
  · obtain ⟨⟨j, slot⟩, he, heq⟩ := List.mem_filterMap.mp h
    split at heq
    · rename_i hnew
      cases heq
      have hget := InsertionMap.mem_entries.mp he
      have hj : slot.callId = j := slots_callId hget
      subst hj
      exact ⟨.inr ⟨hnew.2, slot, hget, hnew.1⟩, .inl hget⟩
    · cases heq

theorem ends_of_settles {k : JsString} (h : Settles commit conversationId k) :
    k ∈ (ends commit conversationId).map Prod.fst := by
  obtain ⟨old, hold, hrunning, hnext⟩ | ⟨hnew, slot, hslot, hdone⟩ := h
  · have hk : old.callId = k := slots_callId hold
    subst hk
    obtain ⟨r, hr⟩ := endOf_settles hrunning hnext
    refine List.mem_map.mpr ⟨(old.callId, r), List.mem_append_left _ ?_, rfl⟩
    exact List.mem_filterMap.mpr ⟨(old.callId, old), InsertionMap.mem_entries.mpr hold, by rw [hr]; rfl⟩
  · have hk : slot.callId = k := slots_callId hslot
    subst hk
    refine List.mem_map.mpr ⟨(slot.callId, slot, slot.entry), List.mem_append_right _ ?_, rfl⟩
    exact List.mem_filterMap.mpr
      ⟨(slot.callId, slot), InsertionMap.mem_entries.mpr hslot, if_pos ⟨hdone, hnew⟩⟩

theorem nodup_filterMap {κ ν β : Type} (m : InsertionMap κ ν) {f : κ × ν → Option (κ × β)}
    (h : ∀ e ∈ m.entries, ∀ r, f e = some r → r.1 = e.1) : ((m.entries.filterMap f).map Prod.fst).Nodup := by
  have hsub : ((m.entries.filterMap f).map Prod.fst).Sublist (m.entries.map Prod.fst) := by
    have hall : ∀ l : List (κ × ν), (∀ e ∈ l, ∀ r, f e = some r → r.1 = e.1) →
        ((l.filterMap f).map Prod.fst).Sublist (l.map Prod.fst) := by
      intro l
      induction l with
      | nil => exact fun _ => .slnil
      | cons e l ih =>
        intro hl
        have hrest := ih fun e he => hl e (List.mem_cons_of_mem _ he)
        cases hf : f e with
        | none =>
          rw [List.filterMap_cons_none hf]
          exact hrest.cons _
        | some r =>
          rw [List.filterMap_cons_some hf, List.map_cons, List.map_cons, hl e List.mem_cons_self r hf]
          exact hrest.cons_cons _
    exact hall _ h
  exact m.nodup.sublist hsub

theorem nodup_ends : ((ends commit conversationId).map Prod.fst).Nodup := by
  unfold ends
  rw [List.map_append, List.nodup_append]
  refine ⟨nodup_filterMap _ ?_, nodup_filterMap _ ?_, ?_⟩
  · rintro ⟨j, slot⟩ he r hr
    obtain ⟨r, -, rfl⟩ := Option.map_eq_some_iff.mp hr
    exact slots_callId (InsertionMap.mem_entries.mp he)
  · rintro ⟨j, slot⟩ he r hr
    split at hr
    · cases hr
      exact slots_callId (InsertionMap.mem_entries.mp he)
    · cases hr
  · rintro k hk _ hk' rfl
    obtain ⟨⟨_, r⟩, hr, rfl⟩ := List.mem_map.mp hk
    obtain ⟨⟨j, slot⟩, he, heq⟩ := List.mem_filterMap.mp hr
    obtain ⟨r, -, hpair⟩ := Option.map_eq_some_iff.mp heq
    cases hpair
    have hget := InsertionMap.mem_entries.mp he
    have hj : slot.callId = j := slots_callId hget
    obtain ⟨⟨_, r'⟩, hr', hfst⟩ := List.mem_map.mp hk'
    obtain ⟨⟨i, other⟩, -, hother⟩ := List.mem_filterMap.mp hr'
    split at hother
    · rename_i hnew
      cases hother
      dsimp only at hfst hnew
      rw [hfst, hj, hget] at hnew
      cases hnew.2
    · cases hother

theorem ended_entries : (ended commit conversationId).entries = ends commit conversationId :=
  InsertionMap.entries_ofList nodup_ends

theorem settles_iff {k : JsString} :
    k ∈ (ended commit conversationId).entries.map Prod.fst ↔ Settles commit conversationId k := by
  rw [ended_entries]
  constructor
  · intro hk
    obtain ⟨⟨_, r⟩, hr, rfl⟩ := List.mem_map.mp hk
    exact (mem_ends hr).1
  · exact ends_of_settles

/-! ## What is presented -/

def Shows (d : Completed) (source : Option (EntryRecord × Nat)) : Prop :=
  d.failed = ((source.bind firstResult).map Prod.fst).getD true ∧
    d.output = ((source.bind firstResult).map Prod.snd).getD .missing

theorem finish_ok {slot : Option ToolSlot} {source : Option (EntryRecord × Nat)} {d : Completed}
    (h : finish commit conversationId slot source = .ok d) :
    (∀ s id, slot = some s → s.taskId = some id → d.toolCallId = .task id) ∧ Shows d source := by
  unfold finish at h
  dsimp only at h
  split at h
  · cases h
  · rename_i id source hid
    cases h
    refine ⟨?_, rfl, rfl⟩
    rintro s i rfl hi
    rw [Option.bind_some, hi, Option.some_or, Option.some.injEq] at hid
    exact congrArg ToolCallId.task hid.symm
  · rename_i entry ordinal hid
    cases h
    refine ⟨?_, rfl, rfl⟩
    rintro s i rfl hi
    rw [Option.bind_some, hi, Option.some_or] at hid
    cases hid

def Starts (commit : DurableSessionCommit) (conversationId : Nat) (k : JsString) (d : Started) : Prop :=
  ∃ slot id, (current commit conversationId).get k = some slot ∧ slot.taskId = some id ∧
    d.toolCallId = .task id ∧ d.toolName = slot.name

/-- A completion for a settled call, with the result that was written for it. -/
def Completes (commit : DurableSessionCommit) (conversationId : Nat) (k : JsString) (d : Completed) :
    Prop :=
  ∃ slot entry, (ended commit conversationId).get k = some (slot, entry) ∧
    LastSlot commit conversationId k slot ∧ (∀ id, slot.taskId = some id → d.toolCallId = .task id) ∧
    Shows d (entry.bind (entries commit conversationId).get)

/-- The written result is that of no settled call. -/
def Unclaimed (commit : DurableSessionCommit) (conversationId : Nat) (id : Nat) : Prop :=
  (∃ source, (entries commit conversationId).get id = some source ∧
    source.1.model.any Message.isToolResult = true) ∧
  ∀ k e, (ended commit conversationId).get k = some e → e.2 ≠ some id

/-- Exactly one start for each call that comes to run, exactly one completion for each call that settles
and for each written result that is that of no settled call, and nothing else. -/
def Presents (commit : DurableSessionCommit) (conversationId : Nat) (events : List Description) : Prop :=
  ∃ (calls settled : List JsString) (results : List Nat) (starts : List Started) (ends rest : List Completed),
    events = starts.map .started ++ (ends ++ rest).map .completed ∧
    calls.Nodup ∧ (∀ k, k ∈ calls ↔ Begins commit conversationId k) ∧
    List.Forall₂ (Starts commit conversationId) calls starts ∧
    settled.Nodup ∧ (∀ k, k ∈ settled ↔ Settles commit conversationId k) ∧
    List.Forall₂ (Completes commit conversationId) settled ends ∧
    results.Nodup ∧ (∀ id, id ∈ results ↔ Unclaimed commit conversationId id) ∧
    List.Forall₂ (fun id d => Shows d ((entries commit conversationId).get id)) results rest

theorem entries_id {id : Nat} {source : EntryRecord × Nat}
    (h : (entries commit conversationId).get id = some source) : source.1.id = id := by
  unfold entries at h
  rw [InsertionMap.get_ofList] at h
  obtain ⟨e, hfind, rfl⟩ := Option.map_eq_some_iff.mp h
  obtain ⟨w, -, rfl⟩ := List.mem_map.mp (List.mem_reverse.mp (List.mem_of_find?_eq_some hfind))
  simpa using List.find?_some hfind

theorem nodup_unshown : ((unshown commit conversationId).map fun source => source.1.id).Nodup := by
  unfold unshown
  refine List.Nodup.sublist (List.filter_sublist.map _) ?_
  have hkeys : ((entries commit conversationId).entries.map Prod.snd).map (fun source => source.1.id) =
      (entries commit conversationId).entries.map Prod.fst := by
    rw [List.map_map]
    refine List.map_congr_left fun e he => ?_
    exact entries_id (InsertionMap.mem_entries.mp he)
  rw [hkeys]
  exact (entries commit conversationId).nodup

theorem mem_resultEntries {id : Nat} : id ∈ resultEntries commit conversationId ↔
    ((entries commit conversationId).get id).isSome ∧
      ∃ k e, (ended commit conversationId).get k = some e ∧ e.2 = some id := by
  unfold resultEntries shownEntry
  rw [List.mem_filterMap]
  constructor
  · rintro ⟨⟨k, slot, entry⟩, he, heq⟩
    obtain ⟨source, hsource, rfl⟩ := Option.map_eq_some_iff.mp heq
    obtain ⟨i, hi, hget⟩ := Option.bind_eq_some_iff.mp hsource
    rw [entries_id hget, hget]
    exact ⟨rfl, k, (slot, entry), InsertionMap.mem_entries.mp he, hi⟩
  · rintro ⟨hsome, k, ⟨slot, entry⟩, hget, rfl⟩
    obtain ⟨source, hsource⟩ := Option.isSome_iff_exists.mp hsome
    refine ⟨(k, slot, some id), InsertionMap.mem_entries.mpr hget, ?_⟩
    rw [Option.bind_some, hsource, Option.map_some, entries_id hsource]

theorem unclaimed_iff {id : Nat} : id ∈ (unshown commit conversationId).map (fun source => source.1.id) ↔
    Unclaimed commit conversationId id := by
  unfold unshown Unclaimed
  rw [List.mem_map]
  constructor
  · rintro ⟨source, hsource, rfl⟩
    rw [List.mem_filter, decide_eq_true_eq] at hsource
    obtain ⟨⟨⟨j, _⟩, he, rfl⟩, hout, hresult⟩ := And.imp_left List.mem_map.mp hsource
    have hget := InsertionMap.mem_entries.mp he
    have hj := entries_id hget
    dsimp only at hget hj hout hresult ⊢
    rw [hj] at hout ⊢
    refine ⟨⟨_, hget, hresult⟩, fun k e hk heq => hout (mem_resultEntries.mpr ⟨?_, k, e, hk, heq⟩)⟩
    rw [hget]
    rfl
  · rintro ⟨⟨source, hget, hresult⟩, hnone⟩
    have hid := entries_id hget
    refine ⟨source, ?_, hid⟩
    rw [List.mem_filter, decide_eq_true_eq, hid]
    refine ⟨List.mem_map.mpr ⟨(id, source), InsertionMap.mem_entries.mpr hget, rfl⟩, fun hin => ?_, hresult⟩
    obtain ⟨-, k, e, hk, heq⟩ := mem_resultEntries.mp hin
    exact hnone k e hk heq

theorem mapM_ok {ε α β : Type} {f : α → Except ε β} {l : List α} {r : List β} (h : l.mapM f = .ok r) :
    List.Forall₂ (fun a b => f a = .ok b) l r := by
  induction l generalizing r with
  | nil =>
    cases h
    exact .nil
  | cons a l ih =>
    rw [List.mapM_cons] at h
    cases ha : f a with
    | error e =>
      rw [ha] at h
      cases h
    | ok b =>
      cases hl : l.mapM f with
      | error e =>
        rw [ha, hl] at h
        cases h
      | ok bs =>
        rw [ha, hl] at h
        cases h
        exact .cons ha (ih hl)

theorem prepare_ok {events : List Description}
    (h : prepareToolPresentation commit conversationId = .ok events) :
    ∃ starts ends rest, events = starts.map .started ++ (ends ++ rest).map .completed ∧
      List.Forall₂ (fun slot d => start commit conversationId slot = .ok d) (begun commit conversationId) starts ∧
      List.Forall₂ (fun e d =>
        finish commit conversationId (some e.2.1) (shownEntry commit conversationId e.2) = .ok d)
        (ended commit conversationId).entries ends ∧
      List.Forall₂ (fun source d => finishEntry commit conversationId source = .ok d)
        (unshown commit conversationId) rest := by
  unfold prepareToolPresentation at h
  cases hstarts : (begun commit conversationId).mapM (start commit conversationId) with
  | error e =>
    rw [hstarts] at h
    cases h
  | ok starts =>
    rw [hstarts] at h
    cases hends : (ended commit conversationId).entries.mapM fun e =>
        finish commit conversationId (some e.2.1) (shownEntry commit conversationId e.2) with
    | error e =>
      dsimp only [bind, Except.bind] at h
      rw [hends] at h
      cases h
    | ok ends =>
      cases hrest : (unshown commit conversationId).mapM (finishEntry commit conversationId) with
      | error e =>
        dsimp only [bind, Except.bind] at h
        rw [hends, hrest] at h
        cases h
      | ok rest =>
        dsimp only [bind, Except.bind] at h
        rw [hends, hrest] at h
        cases h
        exact ⟨starts, ends, rest, rfl, mapM_ok hstarts, mapM_ok hends, mapM_ok hrest⟩

theorem forall₂_of_mem {α β : Type} {R S : α → β → Prop} {l : List α} {m : List β} (h : List.Forall₂ R l m)
    (hRS : ∀ a ∈ l, ∀ b, R a b → S a b) : List.Forall₂ S l m := by
  induction h with
  | nil => exact .nil
  | cons hab _ ih =>
    exact .cons (hRS _ List.mem_cons_self _ hab) (ih fun a ha => hRS a (List.mem_cons_of_mem _ ha))

theorem prepare_presents {events : List Description}
    (h : prepareToolPresentation commit conversationId = .ok events) :
    Presents commit conversationId events := by
  obtain ⟨starts, ends, rest, rfl, hstarts, hends, hrest⟩ := prepare_ok h
  refine ⟨(begun commit conversationId).map ToolSlot.callId,
    (ended commit conversationId).entries.map Prod.fst,
    (unshown commit conversationId).map fun source => source.1.id, starts, ends, rest, rfl,
    nodup_begun, fun _ => begins_iff, ?_, (ended commit conversationId).nodup, fun _ => settles_iff, ?_,
    nodup_unshown, fun _ => unclaimed_iff, ?_⟩
  · rw [List.forall₂_map_left_iff]
    refine forall₂_of_mem hstarts fun slot hslot d hd => ?_
    obtain ⟨id, -, -, hid, -, -, hcall, hname, -⟩ := start_ok hd
    exact ⟨slot, id, (mem_begun.mp hslot).1, hid, hcall, hname⟩
  · rw [List.forall₂_map_left_iff]
    refine forall₂_of_mem hends fun e he d hd => ?_
    obtain ⟨hcall, hshows⟩ := finish_ok hd
    have hlast := (mem_ends (ended_entries ▸ he)).2
    exact ⟨e.2.1, e.2.2, InsertionMap.mem_entries.mp he, hlast, fun id => hcall _ id rfl, hshows⟩
  · rw [List.forall₂_map_left_iff]
    refine forall₂_of_mem hrest fun source hsource d hd => ?_
    obtain ⟨-, hshows⟩ := finish_ok hd
    unfold unshown at hsource
    obtain ⟨⟨j, _⟩, he, rfl⟩ := List.mem_map.mp (List.mem_filter.mp hsource).1
    have hget := InsertionMap.mem_entries.mp he
    rw [entries_id hget, hget]
    exact hshows

/-! ## Shown and handed off -/

def ShowsIntents (commit : DurableSessionCommit) (events : List Description) : Prop :=
  ∀ d, .started d ∈ events → ∀ id, d.toolCallId = .task id → ∀ intent,
    durableToolIntent commit id = some intent → d.input commit = some intent.arguments

/-- The first write of a task that comes to run, where it is an intent, has the arguments of the last. -/
def SameArguments (commit : DurableSessionCommit) (conversationId : Nat) : Prop :=
  ∀ slot ∈ begun commit conversationId, ∀ id, slot.taskId = some id → ∀ first last,
    firstWrite commit id = some first → lastWrite commit conversationId id = some last →
    executeArguments first ≠ none → first.callId ≠ none → executeArguments first = executeArguments last

theorem intent_iff {id : Nat} {members : List (JsString × Json)} :
    (∃ callId, durableToolIntent commit id = some ⟨callId, members⟩) ↔
      ∃ first, firstWrite commit id = some first ∧ executeArguments first = some members ∧
        first.callId ≠ none := by
  unfold durableToolIntent
  rw [commitIndex_get]
  constructor
  · rintro ⟨callId, h⟩
    obtain ⟨first, hfirst, h⟩ := Option.bind_eq_some_iff.mp h
    obtain ⟨args, hargs, h⟩ := Option.bind_eq_some_iff.mp h
    obtain ⟨call, hcall, h⟩ := Option.bind_eq_some_iff.mp h
    cases h
    exact ⟨first, hfirst, hargs, by rw [hcall]; nofun⟩
  · rintro ⟨first, hfirst, hargs, hcall⟩
    obtain ⟨call, hcall⟩ := Option.ne_none_iff_exists'.mp hcall
    refine ⟨call, ?_⟩
    rw [hfirst, Option.bind_eq_bind, Option.bind_some, hargs, Option.bind_eq_bind, Option.bind_some, hcall]
    rfl

theorem exists_of_mem {α β : Type} {R : α → β → Prop} {l : List α} {m : List β} (h : List.Forall₂ R l m)
    {a : α} (ha : a ∈ l) : ∃ b ∈ m, R a b := by
  induction h with
  | nil => cases ha
  | cons hab _ ih =>
    obtain rfl | ha := List.mem_cons.mp ha
    · exact ⟨_, List.mem_cons_self, hab⟩
    · obtain ⟨b, hb, hr⟩ := ih ha
      exact ⟨b, List.mem_cons_of_mem _ hb, hr⟩

theorem shows_iff {events : List Description}
    (h : prepareToolPresentation commit conversationId = .ok events) :
    ShowsIntents commit events ↔ SameArguments commit conversationId := by
  obtain ⟨starts, ends, rest, rfl, hstarts, -, -⟩ := prepare_ok h
  constructor
  · intro hshows slot hslot id hid first last hfirst hlast hintent hcall
    obtain ⟨args, hargs⟩ := Option.ne_none_iff_exists'.mp hintent
    obtain ⟨callId, hhanded⟩ := intent_iff.mpr ⟨first, hfirst, hargs, hcall⟩
    obtain ⟨d, hd, hstart⟩ := exists_of_mem hstarts hslot
    obtain ⟨i, t, shown, hi, ht, hshown, hcallId, -, hinput⟩ := start_ok hstart
    rw [hid] at hi
    cases hi
    rw [hlast] at ht
    cases ht
    have hin := List.mem_append_left ((ends ++ rest).map Description.completed)
      (List.mem_map_of_mem (f := Description.started) hd)
    rw [hargs, hshown, ← hinput, hshows d hin id hcallId _ hhanded]
  · intro hsame d hd id hcall intent hintent
    obtain hd | hd := List.mem_append.mp hd
    · obtain ⟨_, hd, heq⟩ := List.mem_map.mp hd
      cases heq
      obtain ⟨slot, hslot, hstart⟩ := exists_of_mem hstarts.flip hd
      obtain ⟨i, last, shown, hi, hlast, hshown, hcallId, -, hinput⟩ := start_ok hstart
      rw [hcall] at hcallId
      cases hcallId
      obtain ⟨first, hfirst, hargs, hfirstCall⟩ := intent_iff.mp ⟨intent.callId, hintent⟩
      rw [hinput, ← hshown, ← hargs]
      refine (hsame slot hslot id hi first last hfirst hlast ?_ hfirstCall).symm
      rw [hargs]
      nofun
    · obtain ⟨_, -, heq⟩ := List.mem_map.mp hd
      cases heq

/-- Over any commits, what is shown to start is what is handed off, with one start for each call that
comes to run and one completion for each settled call or other result, if and only if `SameArguments`. -/
theorem tool_presentation {commits : List DurableSessionCommit} {all : List (List Description)}
    (h : commits.mapM (fun commit => prepareToolPresentation commit conversationId) = .ok all) :
    List.Forall₂ (fun commit events =>
      ShowsIntents commit events ∧ Presents commit conversationId events) commits all ↔
      ∀ commit ∈ commits, SameArguments commit conversationId := by
  have hprepared := mapM_ok h
  clear h
  induction hprepared with
  | nil => exact ⟨fun _ => nofun, fun _ => .nil⟩
  | cons hone _ ih =>
    rw [List.forall₂_cons, List.forall_mem_cons, shows_iff hone]
    exact and_congr (and_iff_left (prepare_presents hone)) ih

def intentOf (n : Nat) : NativeTask :=
  { id := 4, conversationId := 1, kind := .tool, callId := some []
    checkpoint := some { phase := some .execute, arguments := some (.obj [([], .num n)]) } }

/-- The call of the task 4 comes to run. -/
def comesToRun : DocumentChange :=
  { live := some 1
    before := some [{ callId := [], name := [], taskId := some 4, status := .pending }]
    after := some [{ callId := [], name := [], taskId := some 4, status := .running }] }

def writtenOnce : DurableSessionCommit := { writes := [.task (intentOf 1)], documents := [comesToRun] }

theorem tool_presentation_once : List.Forall₂ (fun commit events =>
      ShowsIntents commit events ∧ Presents commit 1 events) [writtenOnce]
    [[.started { toolCallId := .task 4, toolName := [], ordinal := 0 }]] := by
  refine (tool_presentation rfl).mpr ?_
  intro commit hcommit slot hslot id hid first last hfirst hlast _ _
  obtain rfl := List.mem_singleton.mp hcommit
  obtain rfl : slot = { callId := [], name := [], taskId := some 4, status := .running } :=
    List.mem_singleton.mp hslot
  cases hid
  have hsame : firstWrite writtenOnce 4 = lastWrite writtenOnce 1 4 := rfl
  rw [hfirst, hlast, Option.some.injEq] at hsame
  rw [hsame]

def writtenTwice : DurableSessionCommit :=
  { writes := [.task (intentOf 1), .task (intentOf 2)], documents := [comesToRun] }

theorem tool_presentation_differs : ¬ ∀ (commit : DurableSessionCommit) (conversationId : Nat) events,
    prepareToolPresentation commit conversationId = .ok events → ShowsIntents commit events := by
  intro hclaim
  have hevents : prepareToolPresentation writtenTwice 1 =
      .ok [.started { toolCallId := .task 4, toolName := [], ordinal := 1 }] := rfl
  have hshown := hclaim writtenTwice 1 _ hevents _ List.mem_cons_self 4 rfl ⟨[], [([], .num 1)]⟩ rfl
  have hinput : Started.input writtenTwice { toolCallId := .task 4, toolName := [], ordinal := 1 } =
      some [([], .num 2)] := rfl
  rw [hinput] at hshown
  cases hshown

end Tools
end Supervisor
end PiCloud
