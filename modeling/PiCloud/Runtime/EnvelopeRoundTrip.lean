import PiCloud.Runtime.KafkaAcceptedFact

/-!
# Runtime.EnvelopeRoundTrip

What the reader of the Session log makes of a record is the fact that the writer made it of, where
the fact is within the reader's bounds: identities of at most 512 units, a safe epoch, a reply topic
of at most 249. Nothing on the writer's side asks for these bounds.

* `Fits`: the bounds.
* `expand_encode`: the two directions of the envelope, at any bounds.
* `record_read_back`: writer, record and reader together.
-/

namespace PiCloud
namespace Runtime
namespace SessionLog

open Lib

variable {l : Limits} {r : AcceptedFactScope}

/-! ## What the reader's bounds ask of a fact -/

/-- The Conversation view of a scope is within bounds. -/
structure ViewFits (l : Limits) (s : AcceptedFactScope) : Prop where
  session : l.id s.sessionId = true
  turn : l.id s.turnId = true

structure RootFits (l : Limits) (s : AcceptedFactScope) : Prop where
  tenant : l.id s.tenantId = true
  piSession : l.id s.piSessionId = true
  run : l.id s.runId = true
  writer : l.id s.writerId = true
  view : ViewFits l s
  epoch : l.epoch s.fencingToken = true

structure CommitFits (l : Limits) (fact : AcceptedDurableCommitFact) : Prop where
  root : RootFits l fact.scope
  tools : ∀ tool ∈ fact.tools, ViewFits l tool.scope
  topic : ∀ tool ∈ fact.tools, ∀ topic, tool.replyTopic = some topic → l.topic topic = true
  cancellations : ∀ cancel ∈ fact.cancellations, ViewFits l cancel.scope
  display : ∀ display ∈ fact.display, ViewFits l display.scope

structure ProbeFits (l : Limits) (fact : PathProbe) : Prop where
  root : RootFits l fact.scope
  bindings : ∀ binding ∈ fact.bindings, ViewFits l binding.scope

def Fits (l : Limits) : SessionLogFact → Prop
  | .durableCommit fact => CommitFits l fact
  | .pathProbe fact => ProbeFits l fact
  | .plain _ => True

/-! ## The names of the fields -/

theorem distinct_names : ∀ names ∈ [
    ["sessionId", "turnId"],
    ["tenantId", "sessionId", "runId", "turnId", "fencingToken", "piSessionId", "writerId"],
    ["view", "target", "taskId", "request", "occurredAt", "traceContext"],
    ["view", "target", "operationId", "taskId", "conversationId", "toolName", "contextAnchor",
      "bindingId", "sourceDocumentId", "recovery", "replyMode", "workflowKey"],
    ["view", "target", "operationId", "bindingId", "taskId", "conversationId", "toolName"],
    ["view", "activationId", "operationId", "target"],
    ["view", "events", "coveredThrough"],
    ["kind", "factId", "scope", "commit", "origins", "inputQueueSessions", "occurredAt",
      "replyTopic", "tools", "cancellations", "display"],
    ["bindingId", "probe", "view"],
    ["kind", "scope", "execution"]], Distinct names := by
  decide +kernel

/-- The texts that are told apart, and the names that no encoded fact has. -/
theorem texts_apart :
    (∀ p ∈ [("cube", "executor"), ("cube", "control"), ("control", "executor"),
      ("durable_commit", "tool_cancel"), ("durable_commit", "tool_command"),
      ("path_probe", "tool_cancel"), ("path_probe", "tool_command"),
      ("path_probe", "durable_commit")], isText (some (.str (ascii p.1))) p.2 = false) ∧
    (∀ kind ∈ ["agent_event", "path_probe", "runtime_keepalive", "execution_seal", "work_finished"],
      ascii "control_change" ≠ ascii kind) ∧
    (∀ name ∈ ["closesWriter", "retireWriter"], ascii name ∉ ["kind", "factId", "scope", "commit",
        "origins", "inputQueueSessions", "occurredAt", "replyTopic", "tools", "cancellations",
        "display"].map ascii ∧ ascii name ∉ ["kind", "scope", "execution"].map ascii) ∧
    truthy (some (.str (ascii "executor"))) = true := by
  decide +kernel

/-! ## Scopes -/

theorem boundedId_eq_ok {message : String} {s t : JsString} :
    boundedId l message (some (.str s)) = .ok t ↔ t = s ∧ l.id s = true := by
  simp only [boundedId]
  by_cases h : l.id s = true
  · simp [h, eq_comm]
  · simp [h]

theorem boundedEpoch_eq_ok {q r : Rat} :
    boundedEpoch l (some (.num q)) = .ok r ↔ r = q ∧ l.epoch q = true := by
  simp only [boundedEpoch]
  by_cases h : l.epoch q = true
  · simp [h, eq_comm]
  · simp [h]

@[simp] theorem object_obj (m : Members) : object (some (.obj m)) = .ok m := rfl

@[simp] theorem list_arr (items : List Json) : list (some (.arr items)) = .ok items := rfl

theorem keys_record {fields : List (String × Field)} {allowed : List String}
    (h : ∀ f ∈ fields, f.1 ∈ allowed) : keys (record fields) allowed = .ok () := by
  simp [keys, onlyKeys_record h]

theorem scope_view (s : AcceptedFactScope) :
    Inverts (fun j => scope l r (some j)) (fun s => view s r) (ViewFits l) s := by
  intro j hw s'
  simp only [view] at hw
  split at hw
  · rename_i howner
    cases hw
    simp only [AcceptedFactScope.owner, Prod.mk.injEq] at howner
    obtain ⟨h1, h2, h3, h4, h5⟩ := howner
    have hd : Distinct ["sessionId", "turnId"] := distinct_names _ (by simp)
    have hget := get_record s.viewFields hd
    have hkeys : keys (record s.viewFields) ["sessionId", "turnId"] = .ok () :=
      keys_record (by simp [AcceptedFactScope.viewFields])
    simp only [scope, object_obj, ok_bind, hkeys]
    generalize record s.viewFields = m at *
    simp only [AcceptedFactScope.viewFields, List.forall_mem_cons] at hget
    simp only [hget, bind_eq_ok, boundedId_eq_ok]
    constructor
    · rintro ⟨_, ⟨rfl, hs⟩, _, ⟨rfl, ht⟩, hp⟩
      cases hp
      cases s
      simp_all
      exact ⟨hs, ht⟩
    · rintro ⟨rfl, hs, ht⟩
      refine ⟨_, ⟨rfl, hs⟩, _, ⟨rfl, ht⟩, ?_⟩
      cases s'
      simp_all
      rfl
  · cases hw

theorem rootScope_fields {s s' : AcceptedFactScope} :
    rootScope l (some (.obj (record s.fields))) = .ok s' ↔ s' = s ∧ RootFits l s := by
  have hd : Distinct ["tenantId", "sessionId", "runId", "turnId", "fencingToken", "piSessionId",
      "writerId"] := distinct_names _ (by simp)
  have hget := get_record s.fields hd
  have hkeys : keys (record s.fields) ["tenantId", "piSessionId", "runId", "writerId",
      "fencingToken", "sessionId", "turnId"] = .ok () :=
    keys_record (by simp [AcceptedFactScope.fields])
  simp only [rootScope, object_obj, ok_bind, hkeys]
  generalize record s.fields = m at *
  simp only [AcceptedFactScope.fields, List.forall_mem_cons] at hget
  simp only [hget, bind_eq_ok, boundedId_eq_ok, boundedEpoch_eq_ok]
  constructor
  · rintro ⟨_, ⟨rfl, h1⟩, _, ⟨rfl, h2⟩, _, ⟨rfl, h3⟩, _, ⟨rfl, h4⟩, _, ⟨rfl, h5⟩, _, ⟨rfl, h6⟩,
      _, ⟨rfl, h7⟩, hp⟩
    cases hp
    exact ⟨rfl, h1, h2, h3, h4, ⟨h5, h6⟩, h7⟩
  · rintro ⟨rfl, h⟩
    exact ⟨_, ⟨rfl, h.tenant⟩, _, ⟨rfl, h.piSession⟩, _, ⟨rfl, h.run⟩, _, ⟨rfl, h.writer⟩,
      _, ⟨rfl, h.view.session⟩, _, ⟨rfl, h.view.turn⟩, _, ⟨rfl, h.epoch⟩, rfl⟩

/-! ## Tools -/

theorem expandRequest_members {request request' : CubeRequest} :
    expandRequest (some (.obj request.members)) = .ok request' ↔ request' = request := by
  have h := And.intro request.lacksType request.lacksVersion
  simp only [expandRequest, object_obj, ok_bind, dif_pos h]
  constructor
  · rintro hp
    cases hp
    rfl
  · rintro rfl
    rfl

theorem isText_self (s : String) : isText (some (.str (ascii s))) s = true := by
  simp [isText, isStr]

theorem isText_ne {s t : String} (h : ascii s ≠ ascii t) :
    isText (some (.str (ascii s))) t = false := by
  simpa [isText, isStr] using h

theorem expandTool_encodeTool {topic : Option JsString} {tool : DurableToolDispatch}
    (ht : tool.replyTopic = topic) :
    Inverts (expandTool l r topic) (encodeTool r) (fun t => ViewFits l t.scope) tool := by
  intro item hw tool'
  simp only [encodeTool] at hw
  obtain ⟨address, haddress, hitem⟩ := bind_eq_ok.mp hw
  cases hitem
  have hscope := scope_view (l := l) tool.scope address haddress
  subst ht
  obtain ⟨descriptor, s, replyTopic⟩ := tool
  have hnot : isText (some (.str (ascii "cube"))) "executor" = false ∧
      isText (some (.str (ascii "cube"))) "control" = false ∧
      isText (some (.str (ascii "control"))) "executor" = false :=
    ⟨texts_apart.1 ("cube", "executor") (by simp), texts_apart.1 ("cube", "control") (by simp),
      texts_apart.1 ("control", "executor") (by simp)⟩
  cases descriptor with
  | cube t =>
    have hd : Distinct ["view", "target", "taskId", "request", "occurredAt", "traceContext"] :=
      distinct_names _ (by simp)
    have hget := get_record (("view", some address) :: t.fields) hd
    have hkeys : keys (record (("view", some address) :: t.fields))
        ["target", "taskId", "request", "occurredAt", "traceContext", "view"] = .ok () :=
      keys_record (by simp [CubeToolDispatch.fields])
    simp only [ToolDescriptor.fields, expandTool, object_obj, ok_bind, hkeys]
    generalize record (("view", some address) :: t.fields) = m at *
    simp only [CubeToolDispatch.fields, List.forall_mem_cons] at hget
    simp only [hget, hnot, isText_self, Bool.false_eq_true, if_false, if_true, bind_eq_ok,
      expandRequest_members, hscope]
    constructor
    · rintro ⟨_, rfl, _, ⟨rfl, hs⟩, hp⟩
      cases hp
      exact ⟨rfl, hs⟩
    · rintro ⟨rfl, hs⟩
      exact ⟨_, rfl, _, ⟨rfl, hs⟩, rfl⟩
  | control t =>
    have hd : Distinct ["view", "target", "operationId", "taskId", "conversationId", "toolName",
        "contextAnchor", "bindingId", "sourceDocumentId", "recovery", "replyMode",
        "workflowKey"] := distinct_names _ (by simp)
    have hget := get_record (("view", some address) :: t.fields) hd
    have hkeys : keys (record (("view", some address) :: t.fields))
        ["target", "operationId", "taskId", "conversationId", "toolName", "contextAnchor",
          "bindingId", "sourceDocumentId", "recovery", "replyMode", "workflowKey", "view"] =
        .ok () := keys_record (by simp [ControlToolDispatch.fields])
    simp only [ToolDescriptor.fields, expandTool, object_obj, ok_bind, hkeys]
    generalize record (("view", some address) :: t.fields) = m at *
    simp only [ControlToolDispatch.fields, List.forall_mem_cons] at hget
    simp only [hget, hnot, isText_self, Bool.false_eq_true, if_false, if_true, bind_eq_ok, hscope]
    constructor
    · rintro ⟨_, ⟨rfl, hs⟩, hp⟩
      cases hp
      exact ⟨rfl, hs⟩
    · rintro ⟨rfl, hs⟩
      exact ⟨_, ⟨rfl, hs⟩, rfl⟩
  | executor t =>
    have hd : Distinct ["view", "target", "operationId", "bindingId", "taskId", "conversationId",
        "toolName"] := distinct_names _ (by simp)
    have hget := get_record (("view", some address) :: t.fields) hd
    have hkeys : keys (record (("view", some address) :: t.fields))
        ["target", "operationId", "bindingId", "taskId", "conversationId", "toolName", "view"] =
        .ok () := keys_record (by simp [ExecutorToolDispatch.fields])
    simp only [ToolDescriptor.fields, expandTool, object_obj, ok_bind, hkeys]
    generalize record (("view", some address) :: t.fields) = m at *
    simp only [ExecutorToolDispatch.fields, List.forall_mem_cons] at hget
    simp only [hget, isText_self, if_true, bind_eq_ok, hscope]
    constructor
    · rintro ⟨_, ⟨rfl, hs⟩, hp⟩
      cases hp
      exact ⟨rfl, hs⟩
    · rintro ⟨rfl, hs⟩
      exact ⟨_, ⟨rfl, hs⟩, rfl⟩

/-! ## Cancellations and display -/

theorem expandTarget_executor (executor : Bool) :
    expandTarget (if executor then some (.str (ascii "executor")) else none) = .ok executor := by
  cases executor with
  | false => rfl
  | true =>
    simp [expandTarget, texts_apart.2.2.2, isText_self]

theorem expandCancellation_encode (cancel : AcceptedToolCancellation) :
    Inverts (expandCancellation l r) (encodeCancellation r) (fun c => ViewFits l c.scope)
      cancel := by
  intro item hw cancel'
  simp only [encodeCancellation] at hw
  obtain ⟨address, haddress, hitem⟩ := bind_eq_ok.mp hw
  cases hitem
  have hscope := scope_view (l := l) cancel.scope address haddress
  have hd : Distinct ["view", "activationId", "operationId", "target"] := distinct_names _ (by simp)
  have hget := get_record (cancel.fields address) hd
  have hkeys : keys (record (cancel.fields address))
      ["view", "activationId", "operationId", "target"] = .ok () :=
    keys_record (by simp [AcceptedToolCancellation.fields])
  simp only [expandCancellation, object_obj, ok_bind, hkeys]
  generalize record (cancel.fields address) = m at *
  simp only [AcceptedToolCancellation.fields, List.forall_mem_cons] at hget
  simp only [hget, bind_eq_ok, hscope, expandTarget_executor]
  constructor
  · rintro ⟨_, ⟨rfl, hs⟩, _, hx, hp⟩
    cases hx
    cases hp
    exact ⟨rfl, hs⟩
  · rintro ⟨rfl, hs⟩
    exact ⟨_, ⟨rfl, hs⟩, _, rfl, rfl⟩

theorem get_without_last (m : Members) {name : String} (v : Json) (h : m.has name = false) :
    Members.get (m ++ [(ascii name, v)]) name = some v ∧
      Members.without (m ++ [(ascii name, v)]) [name] = m := by
  constructor
  · rw [Members.get_append_of_lacks h]
    simp [Members.get]
  · rw [Members.without_append, Members.without_eq_self (by simpa using h)]
    simp [Members.without]

theorem expandEvent_compactEvent (address : AcceptedFactScope)
    (description : DurableDisplayDescription) :
    Inverts (expandEvent address) (compactEvent address) (fun _ => True) description := by
  intro text hw description'
  simp only [compactEvent] at hw
  split at hw
  · cases hw
  · rename_i hevent
    cases hw
    obtain ⟨event, members, lacksEvent⟩ := description
    obtain ⟨version, sessionId, turnId, metadata, h1, h2, h3⟩ := event
    simp only [not_or, Classical.not_not] at hevent
    obtain ⟨rfl, rfl, rfl⟩ := hevent
    have hm := get_without_last members (.obj metadata) lacksEvent
    simp only [expandEvent, object_obj, ok_bind, hm.1, dif_pos (And.intro h1 (And.intro h2 h3)),
      and_true]
    constructor
    · intro hp
      cases hp
      simp [hm.2]
    · rintro rfl
      simp [pure, Except.pure, hm.2]

theorem expandDisplay_encode (display : Display) :
    Inverts (expandDisplay l r) (encodeDisplay r) (fun d => ViewFits l d.scope) display := by
  intro item hw display'
  simp only [encodeDisplay] at hw
  obtain ⟨address, haddress, hw⟩ := bind_eq_ok.mp hw
  obtain ⟨events, hevents, hitem⟩ := bind_eq_ok.mp hw
  cases hitem
  have hscope := scope_view (l := l) display.scope address haddress
  have htexts := Inverts.mapM (fun d (_ : d ∈ display.events) =>
    expandEvent_compactEvent display.scope d) events hevents
  have hd : Distinct ["view", "events", "coveredThrough"] := distinct_names _ (by simp)
  have hget := get_record (display.fields address events) hd
  have hkeys : keys (record (display.fields address events))
      ["view", "events", "coveredThrough"] = .ok () := keys_record (by simp [Display.fields])
  simp only [expandDisplay, object_obj, ok_bind, hkeys]
  generalize record (display.fields address events) = m at *
  simp only [Display.fields, List.forall_mem_cons] at hget
  simp only [hget, list_arr, bind_eq_ok, hscope]
  constructor
  · rintro ⟨_, ⟨rfl, hs⟩, _, hitems, _, hx, hp⟩
    cases hitems
    obtain ⟨rfl, -⟩ := (htexts _).mp hx
    cases hp
    exact ⟨rfl, hs⟩
  · rintro ⟨rfl, hs⟩
    exact ⟨_, ⟨rfl, hs⟩, _, rfl, _, (htexts _).mpr ⟨rfl, fun _ _ => trivial⟩, rfl⟩

/-! ## Commits and probes -/

theorem sharedReplyTopic_spec {tools : List DurableToolDispatch} {topic : Option JsString}
    (h : sharedReplyTopic tools = .ok topic) :
    (∀ tool ∈ tools, tool.replyTopic = topic) ∧ (tools = [] ↔ topic = none) := by
  simp only [sharedReplyTopic] at h
  split at h
  · cases h
  · rename_i hnot
    cases h
    simp only [ne_eq, Bool.or_eq_true, List.any_eq_true, decide_eq_true_eq, Bool.and_eq_true,
      not_or, not_exists, not_and, Classical.not_not] at hnot
    refine ⟨fun tool ht => hnot.1 tool ht, ?_⟩
    constructor
    · rintro rfl
      rfl
    · intro hnone
      by_contra hne
      exact (hnot.2 hne).1 hnone

theorem mapM_eq_nil {ε α β : Type} {f : α → Except ε β} {xs : List α} {ys : List β}
    (h : xs.mapM f = .ok ys) : ys = [] ↔ xs = [] := by
  cases xs with
  | nil =>
    rw [List.mapM_nil] at h
    cases h
    simp
  | cons x xs =>
    rw [List.mapM_cons, bind_eq_ok] at h
    obtain ⟨y, -, h⟩ := h
    obtain ⟨ys, -, h⟩ := bind_eq_ok.mp h
    cases h
    simp

theorem commitReplyTopic_eq_ok {items : List Json} {tools : List DurableToolDispatch}
    {topic topic' : Option JsString} (hitems : items = [] ↔ tools = [])
    (h : sharedReplyTopic tools = .ok topic) :
    commitReplyTopic l items (topic.map .str) = .ok topic' ↔
      topic' = topic ∧
        ∀ tool ∈ tools, ∀ t, tool.replyTopic = some t → l.topic t = true := by
  obtain ⟨hall, hnone⟩ := sharedReplyTopic_spec h
  cases tools with
  | nil =>
    obtain rfl := hitems.mpr rfl
    obtain rfl := hnone.mp rfl
    simp only [Option.map_none, commitReplyTopic, List.not_mem_nil, false_implies, implies_true,
      and_true]
    exact ⟨fun h => by cases h; rfl, fun h => by rw [h]⟩
  | cons tool tools =>
    cases items with
    | nil => exact absurd (hitems.mp rfl) (by simp)
    | cons item items =>
      cases topic with
      | none => exact absurd (hnone.mpr rfl) (by simp)
      | some t =>
        have hfits : (∀ tool' ∈ tool :: tools, ∀ t', tool'.replyTopic = some t' →
            l.topic t' = true) ↔ l.topic t = true := by
          constructor
          · intro hf
            exact hf tool List.mem_cons_self t (hall tool List.mem_cons_self)
          · intro ht tool' hm t' heq
            rw [hall tool' hm] at heq
            cases heq
            exact ht
        rw [hfits]
        simp only [Option.map_some, commitReplyTopic]
        by_cases ht : l.topic t = true
        · simp [ht, eq_comm]
        · simp [ht]

theorem expandCommit_encode {fact : AcceptedDurableCommitFact} {value : Members}
    (hw : encodeCommit fact = .ok (.obj value)) {fact' : AcceptedDurableCommitFact} :
    expandCommit l value = .ok fact' ↔ fact' = fact ∧ CommitFits l fact := by
  simp only [encodeCommit] at hw
  obtain ⟨topic, htopic, hw⟩ := bind_eq_ok.mp hw
  obtain ⟨tools, htools, hw⟩ := bind_eq_ok.mp hw
  obtain ⟨cancellations, hcancels, hw⟩ := bind_eq_ok.mp hw
  obtain ⟨display, hdisplay, hw⟩ := bind_eq_ok.mp hw
  cases hw
  have hshared := (sharedReplyTopic_spec htopic).1
  have hread : ∀ topic', commitReplyTopic l tools (topic.map .str) = .ok topic' ↔ _ :=
    fun topic' => commitReplyTopic_eq_ok (mapM_eq_nil htools) htopic
  have htool := Inverts.mapM (fun tool ht => expandTool_encodeTool (l := l) (r := fact.scope)
    (hshared tool ht)) tools htools
  have hcancel := Inverts.mapM (fun c (_ : c ∈ fact.cancellations) =>
    expandCancellation_encode (l := l) (r := fact.scope) c) cancellations hcancels
  have hview := Inverts.mapM (fun d (_ : d ∈ fact.display) =>
    expandDisplay_encode (l := l) (r := fact.scope) d) display hdisplay
  have hd : Distinct ["kind", "factId", "scope", "commit", "origins", "inputQueueSessions",
      "occurredAt", "replyTopic", "tools", "cancellations", "display"] := distinct_names _ (by simp)
  have hget := get_record (fact.fields topic tools cancellations display) hd
  have hkeys : keys (record (fact.fields topic tools cancellations display)) ["kind", "factId",
      "scope", "commit", "origins", "inputQueueSessions", "tools", "cancellations", "display",
      "occurredAt", "replyTopic"] = .ok () :=
    keys_record (by simp [AcceptedDurableCommitFact.fields])
  simp only [expandCommit, ok_bind, hkeys]
  generalize record (fact.fields topic tools cancellations display) = m at *
  simp only [AcceptedDurableCommitFact.fields, List.forall_mem_cons] at hget
  simp only [hget, list_arr, ok_bind, bind_eq_ok, rootScope_fields, hread]
  constructor
  · rintro ⟨_, ⟨rfl, hroot⟩, _, ⟨rfl, hlimit⟩, _, hts, _, hcs, _, hds, hp⟩
    obtain ⟨rfl, htfits⟩ := (htool _).mp hts
    obtain ⟨rfl, hcfits⟩ := (hcancel _).mp hcs
    obtain ⟨rfl, hdfits⟩ := (hview _).mp hds
    cases hp
    exact ⟨rfl, hroot, htfits, hlimit, hcfits, hdfits⟩
  · rintro ⟨rfl, h⟩
    exact ⟨_, ⟨rfl, h.root⟩, _, ⟨rfl, h.topic⟩, _, (htool _).mpr ⟨rfl, h.tools⟩, _,
      (hcancel _).mpr ⟨rfl, h.cancellations⟩, _, (hview _).mpr ⟨rfl, h.display⟩, rfl⟩

theorem expandBinding_encode (binding : ProbeBinding) :
    Inverts (expandBinding l r) (encodeBinding r) (fun b => ViewFits l b.scope) binding := by
  intro item hw binding'
  simp only [encodeBinding] at hw
  obtain ⟨address, haddress, hitem⟩ := bind_eq_ok.mp hw
  cases hitem
  have hscope := scope_view (l := l) binding.scope address haddress
  have hd : Distinct ["bindingId", "probe", "view"] := distinct_names _ (by simp)
  have hget := get_record (binding.fields address) hd
  have hkeys : keys (record (binding.fields address)) ["bindingId", "probe", "view"] = .ok () :=
    keys_record (by simp [ProbeBinding.fields])
  simp only [expandBinding, object_obj, ok_bind, hkeys]
  generalize record (binding.fields address) = m at *
  simp only [ProbeBinding.fields, List.forall_mem_cons] at hget
  simp only [hget, bind_eq_ok, hscope]
  constructor
  · rintro ⟨_, ⟨rfl, hs⟩, hp⟩
    cases hp
    exact ⟨rfl, hs⟩
  · rintro ⟨rfl, hs⟩
    exact ⟨_, ⟨rfl, hs⟩, rfl⟩

theorem expandProbe_encode {fact : PathProbe} {value : Members}
    (hw : encodeProbe fact = .ok (.obj value)) (h : isObsolete value = false)
    {fact' : PathProbe} :
    expandProbe l value h = .ok fact' ↔ fact' = fact ∧ ProbeFits l fact := by
  simp only [encodeProbe] at hw
  obtain ⟨bindings, hbindings, hw⟩ := bind_eq_ok.mp hw
  cases hw
  have hread := Inverts.mapM (fun b (_ : b ∈ fact.bindings) =>
    expandBinding_encode (l := l) (r := fact.scope) b) bindings hbindings
  have hd : Distinct ["kind", "scope", "execution"] := distinct_names _ (by simp)
  have hget := get_record (fact.fields bindings) hd
  have hown : Members.without (record (fact.fields bindings)) ["kind", "scope", "execution"] =
      [] := by
    simp [Members.without, PathProbe.fields, record]
  have hmembers : fact.members.without ["kind", "scope", "execution"] = fact.members := by
    refine Members.without_eq_self fun name hname => fact.lacksOwn name ?_
    simp only [List.mem_cons, List.not_mem_nil, or_false] at hname
    rcases hname with rfl | rfl | rfl <;> simp [probeNames]
  have hexec := get_without_last fact.execution (.arr bindings) fact.lacksBindings
  have hlacks : fact.members.has "scope" = false ∧ fact.members.has "execution" = false :=
    ⟨fact.lacksOwn _ (by simp [probeNames]), fact.lacksOwn _ (by simp [probeNames])⟩
  simp only [expandProbe, Members.get_append_of_lacks hlacks.1,
    Members.get_append_of_lacks hlacks.2, Members.without_append, hown, hmembers, List.append_nil]
  generalize record (fact.fields bindings) = m at *
  simp only [PathProbe.fields, List.forall_mem_cons] at hget
  simp only [hget, object_obj, ok_bind, hexec, list_arr, bind_eq_ok, rootScope_fields]
  constructor
  · rintro ⟨_, ⟨rfl, hroot⟩, _, hbs, hp⟩
    obtain ⟨rfl, hfits⟩ := (hread _).mp hbs
    cases hp
    exact ⟨rfl, hroot, hfits⟩
  · rintro ⟨rfl, hfits⟩
    exact ⟨_, ⟨rfl, hfits.root⟩, _, (hread _).mpr ⟨rfl, hfits.bindings⟩, rfl⟩

/-! ## Facts -/

theorem commit_kind {fact : AcceptedDurableCommitFact} {value : Members}
    (hw : encodeCommit fact = .ok (.obj value)) :
    isObsolete value = false ∧ isKind value "durable_commit" = true := by
  simp only [encodeCommit] at hw
  obtain ⟨topic, -, hw⟩ := bind_eq_ok.mp hw
  obtain ⟨tools, -, hw⟩ := bind_eq_ok.mp hw
  obtain ⟨cancellations, -, hw⟩ := bind_eq_ok.mp hw
  obtain ⟨display, -, hw⟩ := bind_eq_ok.mp hw
  cases hw
  have hnames : ∀ name, ascii name ∉ ["kind", "factId", "scope", "commit", "origins",
      "inputQueueSessions", "occurredAt", "replyTopic", "tools", "cancellations",
      "display"].map ascii →
      (record (fact.fields topic tools cancellations display)).has name = false :=
    fun name h => record_lacks h
  have hkind : (record (fact.fields topic tools cancellations display)).get "kind" =
      some (.str (ascii "durable_commit")) := rfl
  have hnot : isText (some (.str (ascii "durable_commit"))) "tool_cancel" = false ∧
      isText (some (.str (ascii "durable_commit"))) "tool_command" = false :=
    ⟨texts_apart.1 ("durable_commit", "tool_cancel") (by simp),
      texts_apart.1 ("durable_commit", "tool_command") (by simp)⟩
  have h1 := hnames "closesWriter" (texts_apart.2.2.1 _ (by simp)).1
  have h2 := hnames "retireWriter" (texts_apart.2.2.1 _ (by simp)).1
  simp [isObsolete, isKind, h1, h2, hkind, hnot, isText_self]

theorem probe_kind {fact : PathProbe} {value : Members}
    (hw : encodeProbe fact = .ok (.obj value)) :
    isObsolete value = false ∧ isKind value "durable_commit" = false ∧ isProbe value = true := by
  simp only [encodeProbe] at hw
  obtain ⟨bindings, -, hw⟩ := bind_eq_ok.mp hw
  cases hw
  have hlacks : ∀ name ∈ probeNames, fact.members.has name = false := fact.lacksOwn
  simp only [probeNames, List.forall_mem_cons] at hlacks
  obtain ⟨hk, -, hx, hc, hr, -⟩ := hlacks
  have hnames : ∀ name, ascii name ∉ ["kind", "scope", "execution"].map ascii →
      (record (fact.fields bindings)).has name = false := fun name h => record_lacks h
  have hkind : Members.get (fact.members ++ record (fact.fields bindings)) "kind" =
      some (.str (ascii "path_probe")) := by
    rw [Members.get_append_of_lacks hk]
    rfl
  have hexec : truthy (Members.get (fact.members ++ record (fact.fields bindings))
      "execution") = true := by
    rw [Members.get_append_of_lacks hx]
    rfl
  have hnot : isText (some (.str (ascii "path_probe"))) "tool_cancel" = false ∧
      isText (some (.str (ascii "path_probe"))) "tool_command" = false ∧
      isText (some (.str (ascii "path_probe"))) "durable_commit" = false :=
    ⟨texts_apart.1 ("path_probe", "tool_cancel") (by simp),
      texts_apart.1 ("path_probe", "tool_command") (by simp),
      texts_apart.1 ("path_probe", "durable_commit") (by simp)⟩
  have h1 := hnames "closesWriter" (texts_apart.2.2.1 _ (by simp)).2
  have h2 := hnames "retireWriter" (texts_apart.2.2.1 _ (by simp)).2
  simp [isObsolete, isProbe, isKind, Members.has_append, hc, hr, h1, h2, hkind, hexec, hnot,
    isText_self]

theorem encode_obj {fact : SessionLogFact} {input : Json}
    (h : encodeSessionLogFact fact = .ok input) : ∃ value, input = .obj value := by
  cases fact with
  | durableCommit fact =>
    simp only [encodeSessionLogFact, encodeCommit] at h
    obtain ⟨_, -, h⟩ := bind_eq_ok.mp h
    obtain ⟨_, -, h⟩ := bind_eq_ok.mp h
    obtain ⟨_, -, h⟩ := bind_eq_ok.mp h
    obtain ⟨_, -, h⟩ := bind_eq_ok.mp h
    cases h
    exact ⟨_, rfl⟩
  | pathProbe fact =>
    simp only [encodeSessionLogFact, encodeProbe] at h
    obtain ⟨_, -, h⟩ := bind_eq_ok.mp h
    cases h
    exact ⟨_, rfl⟩
  | plain fact =>
    cases h
    exact ⟨_, rfl⟩

theorem expand_encode (fact : SessionLogFact) :
    Inverts (expandSessionLogEnvelope l) encodeSessionLogFact (Fits l) fact := by
  intro input hw fact'
  obtain ⟨value, rfl⟩ := encode_obj hw
  cases fact with
  | durableCommit fact =>
    obtain ⟨hobsolete, hkind⟩ := commit_kind hw
    simp only [expandSessionLogEnvelope, object_obj, ok_bind, dif_pos hobsolete, hkind, if_true]
    rw [bind_eq_ok]
    simp only [expandCommit_encode hw]
    constructor
    · rintro ⟨_, ⟨rfl, hfits⟩, hp⟩
      cases hp
      exact ⟨rfl, hfits⟩
    · rintro ⟨rfl, hfits⟩
      exact ⟨_, ⟨rfl, hfits⟩, rfl⟩
  | pathProbe fact =>
    obtain ⟨hobsolete, hkind, hprobe⟩ := probe_kind hw
    have hplain : ¬isPlain value = true := by simp [isPlain, hprobe]
    simp only [expandSessionLogEnvelope, object_obj, ok_bind, dif_pos hobsolete, hkind,
      Bool.false_eq_true, if_false, dif_neg hplain]
    rw [bind_eq_ok]
    simp only [expandProbe_encode hw]
    constructor
    · rintro ⟨_, ⟨rfl, hfits⟩, hp⟩
      cases hp
      exact ⟨rfl, hfits⟩
    · rintro ⟨rfl, hfits⟩
      exact ⟨_, ⟨rfl, hfits⟩, rfl⟩
  | plain fact =>
    cases hw
    obtain ⟨value, hplain⟩ := fact
    have hparts := hplain
    simp only [isPlain, Bool.and_eq_true, Bool.not_eq_true'] at hparts
    simp only [expandSessionLogEnvelope, object_obj, ok_bind, dif_pos hparts.1.1, hparts.1.2,
      Bool.false_eq_true, if_false, dif_pos hplain]
    constructor
    · intro hp
      cases hp
      exact ⟨rfl, trivial⟩
    · rintro ⟨rfl, -⟩
      rfl

theorem encode_injective {fact other : SessionLogFact} {input : Json}
    (h : encodeSessionLogFact fact = .ok input) (h' : encodeSessionLogFact other = .ok input) :
    other = fact := by
  let unbounded : Limits := ⟨fun _ => true, fun _ => true, fun _ => true⟩
  have hview : ∀ s, ViewFits unbounded s := fun _ => ⟨rfl, rfl⟩
  have hroot : ∀ s, RootFits unbounded s := fun s => ⟨rfl, rfl, rfl, rfl, hview s, rfl⟩
  have hfits : Fits unbounded other := by
    cases other with
    | durableCommit other =>
      exact ⟨hroot _, fun _ _ => hview _, fun _ _ _ _ => rfl, fun _ _ => hview _,
        fun _ _ => hview _⟩
    | pathProbe other => exact ⟨hroot _, fun _ _ => hview _⟩
    | plain other => trivial
  have hother := (expand_encode (l := unbounded) other input h' other).mpr ⟨rfl, hfits⟩
  exact ((expand_encode fact input h other).mp hother).1

/-! ## Writer and reader -/

theorem prepareAcceptedFact_fact {c : Checker} {fact : SessionLogFact}
    {prepared : PreparedSessionLogFact} (h : prepareAcceptedFact c fact = .ok prepared) :
    prepared.fact = fact := by
  cases fact with
  | durableCommit commit =>
    simp only [prepareAcceptedFact] at h
    obtain ⟨tools, -, h⟩ := bind_eq_ok.mp h
    cases h
    rfl
  | pathProbe probe =>
    simp only [prepareAcceptedFact] at h
    obtain ⟨_, -, h⟩ := bind_eq_ok.mp h
    cases h
    rfl
  | plain value =>
    simp only [prepareAcceptedFact] at h
    obtain ⟨_, -, h⟩ := bind_eq_ok.mp h
    cases h
    rfl

theorem assertSessionPublication_prepared {c : Checker} {publication : ExecutionPublication}
    {fact : SessionLogFact} (h : assertSessionPublication c publication fact = .ok ()) :
    ∃ prepared, prepareAcceptedFact c fact = .ok prepared := by
  simp only [assertSessionPublication] at h
  split at h
  · cases h
  · split at h
    · cases h
    · obtain ⟨prepared, hp, -⟩ := bind_eq_ok.mp h
      exact ⟨prepared, hp⟩

theorem isKind_iff {value : Members} {kind : String} :
    isKind value kind = true ↔ value.get "kind" = some (.str (ascii kind)) := by
  simp only [isKind, isText, isStr]
  split <;> simp_all

theorem not_controlChange {c : Checker} {fact : SessionLogFact}
    {prepared : PreparedSessionLogFact} (h : prepareAcceptedFact c fact = .ok prepared) :
    isControlChange fact = false := by
  cases fact with
  | durableCommit commit => rfl
  | pathProbe probe => rfl
  | plain value =>
    by_contra hkind
    have hget := isKind_iff.mp (Bool.not_eq_false _ ▸ hkind)
    have hnot : ∀ kind, ascii "control_change" ≠ ascii kind → isKind value.val kind = false := by
      intro kind hne
      rw [isKind, hget]
      exact isText_ne hne
    have h1 := hnot "agent_event" (texts_apart.2.1 _ (by simp))
    have h2 := hnot "path_probe" (texts_apart.2.1 _ (by simp))
    have h3 := hnot "runtime_keepalive" (texts_apart.2.1 _ (by simp))
    have h4 := hnot "execution_seal" (texts_apart.2.1 _ (by simp))
    have h5 := hnot "work_finished" (texts_apart.2.1 _ (by simp))
    simp only [prepareAcceptedFact] at h
    obtain ⟨_, hcheck, -⟩ := bind_eq_ok.mp h
    simp [checkPlain, h1, h2, h3, h4, h5] at hcheck

/-- A fact that a writer publishes is read back from its record exactly where it is within the
reader's bounds; no other fact has its record. -/
theorem record_read_back (c : Checker) (publication : ExecutionPublication)
    (fact : SessionLogFact) (input : Json)
    (ha : assertSessionPublication c publication fact = .ok ())
    (he : encodeSessionLogFact fact = .ok input) :
    ((∃ prepared, decodeSessionLogFact c input = .ok prepared ∧ prepared.fact = fact) ↔
        Fits wireLimits fact) ∧
      ∀ other, encodeSessionLogFact other = .ok input → other = fact := by
  refine ⟨?_, fun other ho => encode_injective he ho⟩
  have hexpand := expand_encode (l := wireLimits) fact input he
  obtain ⟨prepared, hp⟩ := assertSessionPublication_prepared ha
  have hchange := not_controlChange hp
  constructor
  · rintro ⟨prepared', hd, rfl⟩
    simp only [decodeSessionLogFact] at hd
    rw [bind_eq_ok] at hd
    obtain ⟨parsed, hparsed, -⟩ := hd
    exact ((hexpand parsed).mp hparsed).2
  · intro hfits
    refine ⟨prepared, ?_, prepareAcceptedFact_fact hp⟩
    simp only [decodeSessionLogFact]
    rw [bind_eq_ok]
    refine ⟨fact, (hexpand fact).mpr ⟨rfl, hfits⟩, ?_⟩
    simp only [hchange, Bool.false_eq_true, if_false, hp]

/-! ## A commit with one control tool -/

def ownScope : AcceptedFactScope where
  tenantId := ascii "tenant"
  sessionId := ascii "session"
  runId := ascii "run"
  turnId := ascii "turn"
  fencingToken := 1
  piSessionId := ascii "family"
  writerId := ascii "writer"

/-- The native write that admits the call of task 2. -/
def admittedCall : Json :=
  .obj (record [("type", some (.str (ascii "task"))), ("value", some (.obj (record [
    ("id", some (.num 2)), ("kind", some (.str (ascii "pi.tool"))),
    ("conversationId", some (.num 1)),
    ("input", some (.obj (record [("callId", some (.str (ascii "call")))]))),
    ("state", some (.obj (record [("checkpoint", some (.obj (record [
      ("phase", some (.str (ascii "execute"))), ("arguments", some (.obj []))])))])))])))])

def controlCommit (replyTopic : JsString) : SessionLogFact :=
  .durableCommit {
    factId := some (.str (ascii "fact"))
    scope := ownScope
    commit := some (.obj (record [("seq", some (.num 1)), ("nextId", some (.num 3)),
      ("writes", some (.arr [admittedCall]))]))
    origins := some (.arr [])
    tools := [{
      descriptor := .control {
        operationId := some (.str (ascii "operation")), taskId := some (.num 2)
        conversationId := some (.num 1), toolName := some (.str (ascii "subagent"))
        contextAnchor := some .null }
      scope := ownScope
      replyTopic := some replyTopic }]
    cancellations := []
    display := []
    occurredAt := some (.str (ascii "2026-10-18T00:00:00.000Z")) }

theorem exists_of_isOk {ε α : Type} {r : Except ε α} (h : r.isOk = true) : ∃ a, r = .ok a := by
  cases r with
  | error e => cases h
  | ok a => exact ⟨a, rfl⟩

/-- The tool of the commit names a reply topic of 7 units. -/
theorem record_read_back_control : ∃ prepared input,
    decodeSessionLogFact ⟨fun _ _ => true, fun _ => true⟩ input = .ok prepared ∧
      prepared.fact = controlCommit (ascii "replies") := by
  obtain ⟨u, ha⟩ := exists_of_isOk (r := assertSessionPublication ⟨fun _ _ => true, fun _ => true⟩
    ⟨ownScope⟩ (controlCommit (ascii "replies"))) (by decide +kernel)
  obtain ⟨input, he⟩ := exists_of_isOk (r := encodeSessionLogFact (controlCommit (ascii "replies")))
    (by decide +kernel)
  have hview : ViewFits wireLimits ownScope := ⟨by decide +kernel, by decide +kernel⟩
  have hroot : RootFits wireLimits ownScope :=
    ⟨by decide +kernel, by decide +kernel, by decide +kernel, by decide +kernel, hview,
      by decide +kernel⟩
  have hfits : Fits wireLimits (controlCommit (ascii "replies")) := by
    refine ⟨hroot, ?_, ?_, ?_, ?_⟩
    · simp [hview]
    · intro tool htool topic htopic
      obtain rfl := List.mem_singleton.mp htool
      cases htopic
      decide +kernel
    · simp
    · simp
  obtain ⟨prepared, hd, hf⟩ := (record_read_back _ _ _ input ha he).1.mpr hfits
  exact ⟨prepared, input, hd, hf⟩

/-- With a reply topic of 250 units the writer publishes a record that the reader refuses. -/
theorem long_reply_topic_refused : ¬∀ (c : Checker) (publication : ExecutionPublication)
    (fact : SessionLogFact) (input : Json),
    assertSessionPublication c publication fact = .ok () →
    encodeSessionLogFact fact = .ok input →
    ∃ prepared, decodeSessionLogFact c input = .ok prepared ∧ prepared.fact = fact := by
  intro h
  obtain ⟨u, ha⟩ := exists_of_isOk (r := assertSessionPublication ⟨fun _ _ => true, fun _ => true⟩
    ⟨ownScope⟩ (controlCommit (List.replicate 250 0x74))) (by decide +kernel)
  obtain ⟨input, he⟩ := exists_of_isOk
    (r := encodeSessionLogFact (controlCommit (List.replicate 250 0x74))) (by decide +kernel)
  obtain ⟨prepared, hd, -⟩ := h _ _ _ input ha he
  simp only [decodeSessionLogFact] at hd
  rw [bind_eq_ok] at hd
  obtain ⟨parsed, hparsed, -⟩ := hd
  have hfits := ((expand_encode _ input he parsed).mp hparsed).2
  have htopic := CommitFits.topic hfits _ List.mem_cons_self _ rfl
  revert htopic
  decide +kernel

end SessionLog
end Runtime
end PiCloud
