import Mathlib.Data.List.InsertIdx
import PiCloud.Protocol.Event

/-!
# Runtime.TurnProjection

The transcript of one turn, and the server's fold of session events onto it.

* `ConversationTranscriptItem`: an item of a transcript; the kinds are those of the resource schema.
* `projectItems`: what one event makes of the items.
* `projectEvent`: one round of the loop, with its identity and order checks.
* `finishItems`, `projectConversationTurnTranscript`: the whole fold; `project_sorted` says what it
  makes of events in order.
* `Blurs`: the fields of an item that no event reads.
-/

namespace PiCloud
namespace Runtime

open Lib Protocol

/-! ## Transcripts -/

inductive ToolStatus where
  | running | completed | failed | unknown
deriving DecidableEq

inductive HostedSearchStatus where
  | running | completed | failed
deriving DecidableEq

inductive CompactionStatus where
  | running | completed | aborted | failed
deriving DecidableEq

structure UserItem where
  input : UserInput
  firstSequence : Nat
  lastSequence : Nat

structure TextItem where
  messageId : Option JsString := none
  text : JsString
  phase : Option AssistantMessagePhase := none
  firstSequence : Nat
  lastSequence : Nat

structure ToolPreparingItem where
  toolCallId : JsString
  toolName : JsString
  firstSequence : Nat
  startedAt : JsString

structure HostedSearchItem where
  activityId : JsString
  status : HostedSearchStatus
  action : Option Json := none
  firstSequence : Nat
  lastSequence : Option Nat := none

structure ToolItem where
  toolCallId : JsString
  toolName : JsString
  input : Json
  output : Option Json := none
  status : ToolStatus
  firstSequence : Nat
  lastSequence : Option Nat := none
  startedAt : JsString
  completedAt : Option JsString := none

structure NotificationItem where
  level : NotificationLevel
  message : JsString
  sequence : Nat

structure CompactionItem where
  reason : CompactionReason
  status : CompactionStatus
  willRetry : Bool
  tokensBefore : Option Nat := none
  estimatedTokensAfter : Option Nat := none
  firstSequence : Nat
  lastSequence : Option Nat := none

structure RetryItem where
  nextSamplingAttempt : Nat
  maximumSamplingAttempts : Option Nat := none
  delayMs : Option Nat := none
  sequence : Nat

inductive ItemBody where
  | user (i : UserItem)
  | text (i : TextItem)
  | toolPreparing (i : ToolPreparingItem)
  | hostedSearch (i : HostedSearchItem)
  | tool (i : ToolItem)
  | notification (i : NotificationItem)
  | compaction (i : CompactionItem)
  | retry (i : RetryItem)

structure ConversationTranscriptItem where
  historyCursor : Option JsString := none
  body : ItemBody

structure ConversationTurnTranscript where
  throughSequence : Nat
  items : List ConversationTranscriptItem
  startedSequence : Option Nat
  terminalSequence : Option Nat
  stopReason : Option JsString
  failure : Option TurnFailure
  cancellation : Option TurnCancellation

namespace ItemBody

def isUser (inputId : JsString) : ItemBody → Bool
  | user i => i.input.inputId == inputId
  | _ => false

def isText (messageId : JsString) : ItemBody → Bool
  | text i => i.messageId == some messageId
  | _ => false

def isPreparing (toolCallId : JsString) : ItemBody → Bool
  | toolPreparing i => i.toolCallId == toolCallId
  | _ => false

def isTool (toolCallId : JsString) : ItemBody → Bool
  | tool i => i.toolCallId == toolCallId
  | _ => false

def isHosted (activityId : JsString) : ItemBody → Bool
  | hostedSearch i => i.activityId == activityId
  | _ => false

def isAnyPreparing : ItemBody → Bool
  | toolPreparing _ => true
  | _ => false

def isCompaction : ItemBody → Bool
  | compaction _ => true
  | _ => false

def isRunningCompaction : ItemBody → Bool
  | compaction i => i.status == .running
  | _ => false

end ItemBody

/-! ## The fields an event sets -/

def ToolStatus.ofOutcome : ToolOutcome → ToolStatus
  | .completed => .completed
  | .failed => .failed
  | .unknown => .unknown

def HostedSearchStatus.ofOutcome : HostedToolOutcome → HostedSearchStatus
  | .completed => .completed
  | .failed => .failed

def CompactionStatus.ofOutcome : CompactionOutcome → CompactionStatus
  | .completed => .completed
  | .aborted => .aborted
  | .failed => .failed

def TextItem.extend (old : TextItem) (delta : TextDelta) (seq : Nat) : TextItem :=
  { old with
    text := if delta.replace = some true then delta.text else old.text ++ delta.text
    messageId := match delta.settledMessageId with
      | none => old.messageId
      | some settled => some settled
    phase := match delta.phase with
      | none => old.phase
      | some phase => some phase
    lastSequence := seq }

/-- Whether a delta without identity continues the text `last`. -/
def ItemBody.continuedBy (delta : TextDelta) : ItemBody → Bool
  | .text last =>
    delta.messageId.isNone && last.messageId.isNone && last.phase != some .commentary &&
      delta.phase != some .commentary && last.phase == delta.phase
  | _ => false

def ItemBody.continueText (delta : TextDelta) (seq : Nat) : ItemBody → ItemBody
  | .text last => .text { last with text := last.text ++ delta.text, lastSequence := seq }
  | b => b

def TextItem.ofDelta (delta : TextDelta) (seq : Nat) : TextItem where
  text := delta.text
  messageId := match delta.messageId with
    | none => none
    | some messageId => some (delta.settledMessageId.getD messageId)
  phase := delta.phase
  firstSequence := seq
  lastSequence := seq

/-- What a started tool call makes of the item that has its identity. -/
def ItemBody.restart (toolName : JsString) (input : Json) (at_ : JsString) : ItemBody → ItemBody
  | .tool i => .tool { i with toolName := toolName, input := input, status := .running,
                              startedAt := at_ }
  | b => b

def ItemBody.complete (outcome : ToolOutcome) (output : Option Json) (seq : Nat) (at_ : JsString) :
    ItemBody → ItemBody
  | .tool i => .tool { i with
      output := match output with
        | none => i.output
        | some value => some value
      status := .ofOutcome outcome
      lastSequence := some seq
      completedAt := some at_ }
  | b => b

def ItemBody.extendText (delta : TextDelta) (seq : Nat) : ItemBody → ItemBody
  | .text i => .text (i.extend delta seq)
  | b => b

/-- A running hosted search becomes `status`. -/
def ItemBody.settleHosted (status : HostedSearchStatus) (seq : Nat) : ItemBody → ItemBody
  | .hostedSearch i =>
    if i.status = .running then .hostedSearch { i with status := status, lastSequence := some seq }
    else .hostedSearch i
  | b => b

/-- A running tool becomes unknown and a running compaction becomes `status`. -/
def ItemBody.abandon (status : CompactionStatus) (seq : Nat) (at_ : JsString) :
    ItemBody → ItemBody
  | .tool i =>
    if i.status = .running then
      .tool { i with status := .unknown, lastSequence := some seq, completedAt := some at_ }
    else .tool i
  | .compaction i =>
    if i.status = .running then
      .compaction { i with status := status, lastSequence := some seq }
    else .compaction i
  | b => b

def CompactionItem.ofResult (result : CompactionResult) (firstSequence seq : Nat) :
    CompactionItem where
  reason := result.reason
  status := .ofOutcome result.status
  willRetry := result.willRetry
  tokensBefore := result.tokensBefore
  estimatedTokensAfter := result.estimatedTokensAfter
  firstSequence := firstSequence
  lastSequence := some seq

/-! ## One event -/

namespace ConversationTranscriptItem

def mapBody (f : ItemBody → ItemBody) (item : ConversationTranscriptItem) :
    ConversationTranscriptItem :=
  { item with body := f item.body }

end ConversationTranscriptItem

abbrev Items := List ConversationTranscriptItem

def findItem (p : ItemBody → Bool) (items : Items) : Option Nat :=
  items.findIdx? (fun item => p item.body)

def findLastItem (p : ItemBody → Bool) (items : Items) : Option Nat :=
  (findItem p items.reverse).map (fun i => items.length - 1 - i)

def anyItem (p : ItemBody → Bool) (items : Items) : Bool := items.any (fun item => p item.body)

def pushItem (items : Items) (b : ItemBody) : Items := items ++ [{ body := b }]

def projectTextTail (items : Items) (delta : TextDelta) (seq : Nat) : Items :=
  if items.getLast?.any (fun last => last.body.continuedBy delta) then
    items.modify (items.length - 1) (.mapBody (.continueText delta seq))
  else pushItem items (.text (.ofDelta delta seq))

def projectText (items : Items) (delta : TextDelta) (seq : Nat) : Items :=
  match delta.messageId with
  | none => projectTextTail items delta seq
  | some messageId =>
    match findItem (ItemBody.isText messageId) items with
    | some i => items.modify i (.mapBody (.extendText delta seq))
    | none => projectTextTail items delta seq

/-- A new search item takes nothing from the old one but its first sequence. -/
def replaceHosted (next : Nat → HostedSearchItem) (old : ConversationTranscriptItem) :
    ConversationTranscriptItem :=
  match old.body with
  | .hostedSearch h => { body := .hostedSearch (next h.firstSequence) }
  | _ => old

def projectHosted (items : Items) (activityId : JsString) (seq : Nat)
    (status : HostedSearchStatus) (lastSequence : Option Nat) (action : Option Json) : Items :=
  let next (firstSequence : Nat) : HostedSearchItem :=
    { activityId, status, action, firstSequence, lastSequence }
  match findItem (ItemBody.isHosted activityId) items with
  | none => pushItem items (.hostedSearch (next seq))
  | some i => items.modify i (replaceHosted next)

def dropPreparing (items : Items) (toolCallId : JsString) : Items :=
  match findItem (ItemBody.isPreparing toolCallId) items with
  | none => items
  | some i => items.eraseIdx i

def replaceCompaction (result : CompactionResult) (seq : Nat) (old : ConversationTranscriptItem) :
    ConversationTranscriptItem :=
  match old.body with
  | .compaction c => { body := .compaction (.ofResult result c.firstSequence seq) }
  | _ => old

/-- The compaction a completion refines: the last running one, or the last of the base. -/
def compactedIndex (baseItems : Option Nat) (items : Items) (result : CompactionResult) :
    Option Nat :=
  match findLastItem ItemBody.isRunningCompaction items, baseItems with
  | none, some n =>
    if result.status = .completed then findLastItem ItemBody.isCompaction (items.take n) else none
  | running, _ => running

/-- `baseItems` is the number of items of the base, or nothing without one. -/
def projectCompacted (baseItems : Option Nat) (items : Items) (result : CompactionResult)
    (seq : Nat) : Items :=
  match compactedIndex baseItems items result with
  | none => pushItem items (.compaction (.ofResult result seq seq))
  | some i => items.modify i (replaceCompaction result seq)

/-- The tool of a call updated, or a new one; a preparation of the call goes. -/
def projectTool (items : Items) (toolCallId : JsString) (update : ItemBody → ItemBody)
    (new : ToolItem) : Items :=
  let items := dropPreparing items toolCallId
  match findItem (ItemBody.isTool toolCallId) items with
  | none => pushItem items (.tool new)
  | some i => items.modify i (.mapBody update)

/-- The items after one event. -/
def projectItems (baseItems : Option Nat) (items : Items) (event : PiCloudEvent) : Items :=
  match event.body with
  | .userInput input =>
    if anyItem (ItemBody.isUser input.inputId) items then items
    else pushItem items (.user ⟨input, event.seq, event.seq⟩)
  | .assistantTextDelta delta => projectText items delta event.seq
  | .toolCallPreparing toolCallId toolName =>
    if anyItem (ItemBody.isPreparing toolCallId) items then items
    else pushItem items (.toolPreparing ⟨toolCallId, toolName, event.seq, event.occurredAt⟩)
  | .hostedToolStarted activityId =>
    projectHosted items activityId event.seq .running none none
  | .hostedToolCompleted activityId outcome action =>
    projectHosted items activityId event.seq (.ofOutcome outcome) (some event.seq) action
  | .toolStarted toolCallId toolName input _ =>
    projectTool items toolCallId (.restart toolName input event.occurredAt)
      { toolCallId, toolName, input, status := .running, firstSequence := event.seq,
        startedAt := event.occurredAt }
  | .toolCompleted toolCallId outcome output _ =>
    projectTool items toolCallId (.complete outcome output event.seq event.occurredAt)
      { toolCallId, toolName := ascii "unknown", input := .null, output,
        status := .ofOutcome outcome, firstSequence := event.seq, lastSequence := some event.seq,
        startedAt := event.occurredAt, completedAt := some event.occurredAt }
  | .uiNotification message level =>
    pushItem items (.notification ⟨level, message, event.seq⟩)
  | .contextCompactionStarted reason =>
    pushItem items (.compaction { reason, status := .running, willRetry := false,
                                  firstSequence := event.seq })
  | .contextCompactionCompleted result => projectCompacted baseItems items result event.seq
  | .modelSamplingCompleted _ outcome _ =>
    if outcome = .failed ∨ outcome = .aborted then
      (items.filter (fun item => !item.body.isAnyPreparing)).map
        (.mapBody (.settleHosted .failed event.seq))
    else items
  | .modelSamplingRetryScheduled retry =>
    pushItem items (.retry ⟨retry.nextSamplingAttempt, some retry.maximumSamplingAttempts,
      some retry.delayMs, event.seq⟩)
  | .turnFailed _ => items.map (.mapBody (.abandon .failed event.seq event.occurredAt))
  | .turnCancelled _ => items.map (.mapBody (.abandon .aborted event.seq event.occurredAt))
  | _ => items

/-! ## The fold -/

structure Projection where
  items : Items := []
  previousSequence : Nat := 0
  startedSequence : Option Nat := none
  terminalSequence : Option Nat := none
  stopReason : Option JsString := none
  failure : Option TurnFailure := none
  cancellation : Option TurnCancellation := none

inductive ProjectionError where
  /-- "A conversation turn projection requires at least one event" -/
  | noEvent
  /-- "A conversation turn projection cannot contain a session-level event" -/
  | sessionLevel
  /-- "Conversation turn projection events must share one identity and increase by sequence" -/
  | identity
  /-- the transcript does not pass its schema -/
  | schema
deriving DecidableEq

namespace Projection

def ofBase (base : Option ConversationTurnTranscript) : Projection :=
  match base with
  | none => {}
  | some b => ⟨b.items, b.throughSequence, b.startedSequence, b.terminalSequence, b.stopReason,
      b.failure, b.cancellation⟩

/-- What an event sets beside the items. -/
def note (p : Projection) (event : PiCloudEvent) : Projection :=
  let p := { p with previousSequence := event.seq }
  match event.body with
  | .turnStarted _ _ => { p with startedSequence := some event.seq }
  | .turnCompleted stopReason =>
    { p with terminalSequence := some event.seq, stopReason := some stopReason }
  | .turnFailed failure => { p with terminalSequence := some event.seq, failure := some failure }
  | .turnCancelled cancellation =>
    { p with terminalSequence := some event.seq, stopReason := some (ascii "cancelled"),
             cancellation := some cancellation }
  | _ => p

def apply (baseItems : Option Nat) (p : Projection) (event : PiCloudEvent) : Projection :=
  { p.note event with items := projectItems baseItems p.items event }

end Projection

/-- One round of the loop. -/
def projectEvent (baseItems : Option Nat) (first : PiCloudEvent) (p : Projection)
    (event : PiCloudEvent) : Except ProjectionError Projection :=
  if event.sessionId ≠ first.sessionId ∨ event.turnId ≠ first.turnId ∨
      event.seq ≤ p.previousSequence then .error .identity
  else .ok (p.apply baseItems event)

/-- Preparations go and running searches settle once the turn is over. -/
def finishItems (p : Projection) : Items :=
  match p.terminalSequence with
  | none => p.items
  | some terminal =>
    (p.items.filter (fun item => !item.body.isAnyPreparing)).map
      (.mapBody (.settleHosted
        (if p.failure.isSome ∨ p.cancellation.isSome then .failed else .completed) terminal))

/-- `maxItems` of the transcript schema; the events' own schemas imply the rest of it. -/
def maxTranscriptItems : Nat := 10000

def parseConversationTurnTranscriptResource (t : ConversationTurnTranscript) :
    Except ProjectionError ConversationTurnTranscript :=
  if t.items.length ≤ maxTranscriptItems then .ok t else .error .schema

def Projection.finish (p : Projection) (throughSequence : Nat) : ConversationTurnTranscript where
  throughSequence := throughSequence
  items := finishItems p
  startedSequence := p.startedSequence
  terminalSequence := p.terminalSequence
  stopReason := p.stopReason
  failure := p.failure
  cancellation := p.cancellation

def projectConversationTurnTranscript (events : List PiCloudEvent)
    (base : Option ConversationTurnTranscript) :
    Except ProjectionError ConversationTurnTranscript :=
  match events, base with
  | [], some b => .ok b
  | [], none => .error .noEvent
  | first :: rest, base =>
    if first.turnId.isNone then .error .sessionLevel
    else
      let baseItems := base.map (fun b => b.items.length)
      match (first :: rest).foldlM (projectEvent baseItems first) (.ofBase base) with
      | .error e => .error e
      | .ok p =>
        parseConversationTurnTranscriptResource
          (p.finish ((first :: rest).getLast (List.cons_ne_nil _ _)).seq)

/-! ## Events in order -/

theorem apply_previousSequence (n : Option Nat) (p : Projection) (e : PiCloudEvent) :
    (p.apply n e).previousSequence = e.seq := by
  unfold Projection.apply Projection.note
  cases e.body <;> rfl

/-- `e` is of the session and turn of `first`. -/
def Shares (first e : PiCloudEvent) : Prop :=
  e.sessionId = first.sessionId ∧ e.turnId = first.turnId

instance (first e : PiCloudEvent) : Decidable (Shares first e) := inferInstanceAs (Decidable (_ ∧ _))

theorem foldlM_projectEvent (n : Option Nat) (first : PiCloudEvent) (es : List PiCloudEvent) :
    ∀ p : Projection, es.Pairwise (fun a b => a.seq < b.seq) →
      (∀ e ∈ es, p.previousSequence < e.seq) →
      es.foldlM (projectEvent n first) p =
        if ∀ e ∈ es, Shares first e then .ok (es.foldl (Projection.apply n) p)
        else .error .identity := by
  induction es with
  | nil => intro p _ _; simp; rfl
  | cons e es ih =>
    intro p hsort hlt
    have hcons := List.pairwise_cons.mp hsort
    have he := hlt e (List.mem_cons_self ..)
    rw [List.foldlM_cons]
    by_cases hs : Shares first e
    · have hok : projectEvent n first p e = .ok (p.apply n e) := by
        unfold projectEvent
        rw [if_neg]
        simp [hs.1, hs.2]
        exact he
      rw [hok]
      show es.foldlM (projectEvent n first) (p.apply n e) = _
      rw [ih _ hcons.2 (by rw [apply_previousSequence]; exact hcons.1)]
      simp [hs]
    · have herr : projectEvent n first p e = .error .identity := by
        unfold projectEvent
        rw [if_pos]
        unfold Shares at hs
        tauto
      rw [herr, if_neg (fun hall => hs (hall e (List.mem_cons_self ..)))]
      rfl

theorem project_sorted {first : PiCloudEvent} {rest : List PiCloudEvent}
    {base : Option ConversationTurnTranscript}
    (hs : (first :: rest).Pairwise (fun a b => a.seq < b.seq))
    (hb : ∀ e ∈ first :: rest, (Projection.ofBase base).previousSequence < e.seq) :
    projectConversationTurnTranscript (first :: rest) base =
      if first.turnId.isNone then .error .sessionLevel
      else if ∀ e ∈ first :: rest, Shares first e then
        parseConversationTurnTranscriptResource
          (((first :: rest).foldl (Projection.apply (base.map (fun b => b.items.length)))
            (.ofBase base)).finish ((first :: rest).getLast (List.cons_ne_nil _ _)).seq)
      else .error .identity := by
  simp only [projectConversationTurnTranscript, foldlM_projectEvent _ _ _ _ hs hb]
  split
  · rfl
  · by_cases hall : ∀ e ∈ first :: rest, Shares first e
    · simp only [if_pos hall]
    · simp only [if_neg hall]

/-! ## Fields no event reads -/

/-- `g` blurs fields of an item that neither the choice of an item nor its update depends on. -/
structure Blurs (g : ConversationTranscriptItem → ConversationTranscriptItem) : Prop where
  idem : ∀ x, g (g x) = g x
  user : ∀ k x, (g x).body.isUser k = x.body.isUser k
  text : ∀ k x, (g x).body.isText k = x.body.isText k
  preparing : ∀ k x, (g x).body.isPreparing k = x.body.isPreparing k
  tool : ∀ k x, (g x).body.isTool k = x.body.isTool k
  hosted : ∀ k x, (g x).body.isHosted k = x.body.isHosted k
  anyPreparing : ∀ x, (g x).body.isAnyPreparing = x.body.isAnyPreparing
  compaction : ∀ x, (g x).body.isCompaction = x.body.isCompaction
  runningCompaction : ∀ x, (g x).body.isRunningCompaction = x.body.isRunningCompaction
  continued : ∀ d x, (g x).body.continuedBy d = x.body.continuedBy d
  continueText : ∀ d n x, g ((g x).mapBody (.continueText d n)) = g (x.mapBody (.continueText d n))
  extendText : ∀ d n x, g ((g x).mapBody (.extendText d n)) = g (x.mapBody (.extendText d n))
  restart : ∀ t j o x, g ((g x).mapBody (.restart t j o)) = g (x.mapBody (.restart t j o))
  complete : ∀ c o n a x,
    g ((g x).mapBody (.complete c o n a)) = g (x.mapBody (.complete c o n a))
  settleHosted : ∀ s n x, g ((g x).mapBody (.settleHosted s n)) = g (x.mapBody (.settleHosted s n))
  abandon : ∀ s n a x, g ((g x).mapBody (.abandon s n a)) = g (x.mapBody (.abandon s n a))
  replaceHosted : ∀ k s a l x,
    g (Runtime.replaceHosted (fun n => ⟨k, s, a, n, l⟩) (g x)) =
      g (Runtime.replaceHosted (fun n => ⟨k, s, a, n, l⟩) x)
  replaceCompaction : ∀ r n x,
    g (Runtime.replaceCompaction r n (g x)) = g (Runtime.replaceCompaction r n x)

section Blurs

variable {g : ConversationTranscriptItem → ConversationTranscriptItem}

theorem anyItem_map {p : ItemBody → Bool} (hp : ∀ x, p (g x).body = p x.body) (items : Items) :
    anyItem p (items.map g) = anyItem p items := by
  simp [anyItem, List.any_map, Function.comp_def, hp]

theorem findItem_map {p : ItemBody → Bool} (hp : ∀ x, p (g x).body = p x.body) (items : Items) :
    findItem p (items.map g) = findItem p items := by
  simp [findItem, List.findIdx?_map, Function.comp_def, hp]

theorem findLastItem_map {p : ItemBody → Bool} (hp : ∀ x, p (g x).body = p x.body)
    (items : Items) : findLastItem p (items.map g) = findLastItem p items := by
  simp only [findLastItem, ← List.map_reverse, findItem_map hp, List.length_map]

theorem map_pushItem (h : Blurs g) (items : Items) (b : ItemBody) :
    (pushItem (items.map g) b).map g = (pushItem items b).map g := by
  simp [pushItem, h.idem]

theorem map_modify {f : ConversationTranscriptItem → ConversationTranscriptItem}
    (h : ∀ x, g (f (g x)) = g (f x)) (hg : ∀ x, g (g x) = g x) (items : Items) (i : Nat) :
    ((items.map g).modify i f).map g = (items.modify i f).map g := by
  induction items generalizing i with
  | nil => simp
  | cons x xs ih =>
    cases i with
    | zero => simp [h, hg]
    | succ i => simpa [hg] using ih i

theorem map_map_update {f : ConversationTranscriptItem → ConversationTranscriptItem}
    (h : ∀ x, g (f (g x)) = g (f x)) (items : Items) :
    ((items.map g).map f).map g = (items.map f).map g := by
  simp [Function.comp_def, h]

theorem dropPreparing_map (h : Blurs g) (items : Items) (id : JsString) :
    dropPreparing (items.map g) id = (dropPreparing items id).map g := by
  unfold dropPreparing
  rw [findItem_map (h.preparing id)]
  cases findItem (ItemBody.isPreparing id) items with
  | none => rfl
  | some i => exact List.eraseIdx_map g items i

theorem filter_preparing_map (h : Blurs g) (items : Items) :
    (items.map g).filter (fun item => !item.body.isAnyPreparing) =
      (items.filter (fun item => !item.body.isAnyPreparing)).map g := by
  simp [List.filter_map, Function.comp_def, h.anyPreparing]

theorem projectText_blur (h : Blurs g) (items : Items) (delta : TextDelta) (seq : Nat) :
    (projectText (items.map g) delta seq).map g = (projectText items delta seq).map g := by
  have htail : (projectTextTail (items.map g) delta seq).map g =
      (projectTextTail items delta seq).map g := by
    unfold projectTextTail
    have hlast : (items.map g).getLast?.any (fun last => last.body.continuedBy delta) =
        items.getLast?.any (fun last => last.body.continuedBy delta) := by
      rw [List.getLast?_map]
      cases items.getLast? with
      | none => rfl
      | some last => simp [h.continued]
    rw [hlast]
    split
    · rw [List.length_map]
      exact map_modify (h.continueText delta seq) h.idem items _
    · exact map_pushItem h items _
  unfold projectText
  cases delta.messageId with
  | none => exact htail
  | some messageId =>
    simp only [findItem_map (h.text messageId)]
    cases findItem (ItemBody.isText messageId) items with
    | none => exact htail
    | some i => exact map_modify (h.extendText delta seq) h.idem items i

theorem projectHosted_blur (h : Blurs g) (items : Items) (id : JsString) (seq : Nat)
    (status : HostedSearchStatus) (last : Option Nat) (action : Option Json) :
    (projectHosted (items.map g) id seq status last action).map g =
      (projectHosted items id seq status last action).map g := by
  simp only [projectHosted, findItem_map (h.hosted id)]
  cases findItem (ItemBody.isHosted id) items with
  | none => exact map_pushItem h items _
  | some i => exact map_modify (h.replaceHosted id status action last) h.idem items i

theorem projectCompacted_blur (h : Blurs g) (baseItems : Option Nat) (items : Items)
    (result : CompactionResult) (seq : Nat) :
    (projectCompacted baseItems (items.map g) result seq).map g =
      (projectCompacted baseItems items result seq).map g := by
  have hindex : compactedIndex baseItems (items.map g) result =
      compactedIndex baseItems items result := by
    simp only [compactedIndex, findLastItem_map h.runningCompaction, ← List.map_take,
      findLastItem_map h.compaction]
  simp only [projectCompacted, hindex]
  cases compactedIndex baseItems items result with
  | none => exact map_pushItem h items _
  | some i => exact map_modify (h.replaceCompaction result seq) h.idem items i

theorem projectTool_blur (h : Blurs g) (items : Items) (id : JsString) {f : ItemBody → ItemBody}
    (hf : ∀ x : ConversationTranscriptItem, g ((g x).mapBody f) = g (x.mapBody f))
    (new : ToolItem) :
    (projectTool (items.map g) id f new).map g = (projectTool items id f new).map g := by
  simp only [projectTool, dropPreparing_map h, findItem_map (h.tool id)]
  cases findItem (ItemBody.isTool id) (dropPreparing items id) with
  | none => exact map_pushItem h _ _
  | some i => exact map_modify hf h.idem _ i

theorem projectItems_blur (h : Blurs g) (baseItems : Option Nat) (items : Items)
    (event : PiCloudEvent) :
    (projectItems baseItems (items.map g) event).map g =
      (projectItems baseItems items event).map g := by
  have hpush := fun b => map_pushItem h items b
  have hsame : (items.map g).map g = items.map g := by simp [Function.comp_def, h.idem]
  unfold projectItems
  cases event.body with
  | userInput input =>
    simp only [anyItem_map (h.user input.inputId)]
    split
    · exact hsame
    · exact hpush _
  | assistantTextDelta delta => exact projectText_blur h items delta _
  | toolCallPreparing id name =>
    simp only [anyItem_map (h.preparing id)]
    split
    · exact hsame
    · exact hpush _
  | hostedToolStarted id => exact projectHosted_blur h ..
  | hostedToolCompleted id outcome action => exact projectHosted_blur h ..
  | toolStarted id name input step => exact projectTool_blur h items id (h.restart name input _) _
  | toolCompleted id outcome output step =>
    exact projectTool_blur h items id (h.complete outcome output _ _) _
  | uiNotification message level => exact hpush _
  | contextCompactionStarted reason => exact hpush _
  | contextCompactionCompleted result => exact projectCompacted_blur h ..
  | modelSamplingCompleted step outcome stopReason =>
    simp only [filter_preparing_map h]
    split
    · exact map_map_update (h.settleHosted .failed _) _
    · exact hsame
  | modelSamplingRetryScheduled retry => exact hpush _
  | turnFailed failure => exact map_map_update (h.abandon .failed _ _) items
  | turnCancelled cancellation => exact map_map_update (h.abandon .aborted _ _) items
  | turnStarted kind origin => exact hsame
  | sessionStateChanged a b reason => exact hsame
  | modelSamplingStarted step => exact hsame
  | turnCompleted stopReason => exact hsame

theorem finishItems_blur (h : Blurs g) (p : Projection) :
    (finishItems { p with items := p.items.map g }).map g = (finishItems p).map g := by
  unfold finishItems
  cases p.terminalSequence with
  | none => simp [Function.comp_def, h.idem]
  | some terminal =>
    simp only [filter_preparing_map h]
    exact map_map_update (h.settleHosted _ terminal) _

end Blurs

end Runtime
end PiCloud
