import Mathlib.Data.List.Induction
import PiCloud.Web.SessionView

/-!
# Web.SnapshotAgreement

When the browser's reducer and the server's projection show the same items.

* `view`: an item without what a reader does not see.
* `Steady`: the events on which both make the same of the same items.
* `Agrees`: every split of the events so far, loaded and then applied, shows the same items as
  applying them all and as projecting them all.
-/

namespace PiCloud
namespace Web

open Lib Protocol PiCloud.Runtime

/-! ## What is seen of an item -/

/-- An item without the inputs, outputs, actions and times of its tool. -/
def view : ItemBody → ItemBody
  | .hostedSearch i => .hostedSearch { i with action := none, lastSequence := none }
  | .tool i =>
    .tool { toolCallId := i.toolCallId, toolName := i.toolName, input := .null,
            status := i.status, firstSequence := 0, startedAt := [] }
  | b => b

@[simp] theorem view_view (b : ItemBody) : view (view b) = view b := by cases b <;> rfl

theorem view_settleHosted (s : HostedSearchStatus) (n : Nat) (b : ItemBody) :
    view ((view b).settleHosted s n) = view (b.settleHosted s n) := by
  cases b with
  | hostedSearch i => by_cases h : i.status = .running <;> simp [view, ItemBody.settleHosted, h]
  | _ => rfl

theorem view_abandon (s : CompactionStatus) (n : Nat) (a : JsString) (b : ItemBody) :
    view ((view b).abandon s n a) = view (b.abandon s n a) := by
  cases b with
  | tool i => by_cases h : i.status = .running <;> simp [view, ItemBody.abandon, h]
  | _ => rfl

def serverView (items : Items) : List ItemBody := items.map (fun item => view item.body)

def browserView (items : ViewItems) : List ItemBody := items.map (fun item => view item.body)

/-! ## The browser sees what it sees

What the browser makes of its items depends on what is seen of them alone. -/

def blurShown (item : TranscriptItem) : TranscriptItem := .ofBody [] (view item.body)

section Blur

theorem any_blurShown {p : ItemBody → Bool} (hp : ∀ b, p (view b) = p b) (items : ViewItems) :
    ViewItems.any (items.map blurShown) p = ViewItems.any items p := by
  simp [ViewItems.any, List.any_map, Function.comp_def, blurShown, TranscriptItem.ofBody, hp]

theorem findIdx_blurShown {p : ItemBody → Bool} (hp : ∀ b, p (view b) = p b) (items : ViewItems) :
    (items.map blurShown).findIdx? (fun item => p item.body) =
      items.findIdx? (fun item => p item.body) := by
  simp [List.findIdx?_map, Function.comp_def, blurShown, TranscriptItem.ofBody, hp]

theorem browserView_blurShown (items : ViewItems) :
    browserView (items.map blurShown) = browserView items := by
  simp [browserView, blurShown, TranscriptItem.ofBody]

theorem browserView_append (xs ys : ViewItems) :
    browserView (xs ++ ys) = browserView xs ++ browserView ys := List.map_append

theorem browserView_modify {f : TranscriptItem → TranscriptItem}
    (hf : ∀ x, view (f (blurShown x)).body = view (f x).body) (items : ViewItems) (i : Nat) :
    browserView ((items.map blurShown).modify i f) = browserView (items.modify i f) := by
  unfold browserView
  induction items generalizing i with
  | nil => simp
  | cons x xs ih =>
    cases i with
    | zero => simpa [blurShown, TranscriptItem.ofBody] using hf x
    | succ i => simpa [blurShown, TranscriptItem.ofBody] using ih i

theorem browserView_map {f : TranscriptItem → TranscriptItem}
    (hf : ∀ x, view (f (blurShown x)).body = view (f x).body) (items : ViewItems) :
    browserView ((items.map blurShown).map f) = browserView (items.map f) := by
  simp [browserView, hf]

theorem dropPreparations_blurShown (items : ViewItems) :
    dropPreparations (items.map blurShown) = (dropPreparations items).map blurShown := by
  have h : ∀ b, ItemBody.isAnyPreparing (view b) = b.isAnyPreparing := by
    intro b
    cases b <;> rfl
  simp [dropPreparations, List.filter_map, Function.comp_def, blurShown, TranscriptItem.ofBody, h]

theorem updateMatching_blurShown {p : ItemBody → Bool} (hp : ∀ b, p (view b) = p b)
    {f : TranscriptItem → TranscriptItem}
    (hf : ∀ x, view (f (blurShown x)).body = view (f x).body) (items : ViewItems)
    (new : TranscriptItem) :
    browserView (updateMatching (items.map blurShown) p f new) =
      browserView (updateMatching items p f new) := by
  unfold updateMatching
  rw [any_blurShown hp]
  split
  · refine browserView_map (fun x => ?_) items
    have hpx : p (blurShown x).body = p x.body := hp x.body
    rw [hpx]
    split
    · exact hf x
    · exact view_view x.body
  · rw [browserView_append, browserView_append, browserView_blurShown]

theorem appendText_blurShown (items : ViewItems) (delta : TextDelta) (seq : Nat) :
    browserView (appendText (items.map blurShown) delta seq) =
      browserView (appendText items delta seq) := by
  have htail : browserView (appendTextTail (items.map blurShown) delta seq) =
      browserView (appendTextTail items delta seq) := by
    have hlast : (items.map blurShown).getLast?.any (fun last => last.body.continuedBy delta) =
        items.getLast?.any (fun last => last.body.continuedBy delta) := by
      rw [List.getLast?_map]
      cases items.getLast? with
      | none => rfl
      | some last =>
        obtain ⟨key, page, cursor, recovered, body⟩ := last
        cases body <;> rfl
    unfold appendTextTail
    rw [hlast, List.length_map]
    split
    · refine browserView_modify (fun x => ?_) items _
      obtain ⟨key, page, cursor, recovered, body⟩ := x
      cases body <;> rfl
    · rw [browserView_append, browserView_append, browserView_blurShown]
  unfold appendText
  cases delta.messageId with
  | none => exact htail
  | some k =>
    have hseen : ∀ b, ItemBody.isText k (view b) = b.isText k := by
      intro b
      cases b <;> rfl
    simp only [findIdx_blurShown hseen]
    cases items.findIdx? (fun item => item.body.isText k) with
    | none => exact htail
    | some i =>
      refine browserView_modify (fun x => ?_) items i
      obtain ⟨key, page, cursor, recovered, body⟩ := x
      cases body <;> rfl

theorem completeCompaction_blurShown (items : ViewItems) (result : CompactionResult) (seq : Nat) :
    browserView (completeCompaction (items.map blurShown) result seq) =
      browserView (completeCompaction items result seq) := by
  have hseen : ∀ b, ItemBody.isRunningCompaction (view b) = b.isRunningCompaction := by
    intro b
    cases b <;> rfl
  unfold completeCompaction findLastRunningCompaction
  rw [← List.map_reverse, findIdx_blurShown hseen, List.length_map]
  split
  · rw [browserView_append, browserView_append, browserView_blurShown]
  · refine browserView_modify (fun x => ?_) items _
    obtain ⟨key, page, cursor, recovered, body⟩ := x
    cases body <;> rfl

theorem applyItems_blurShown (items : ViewItems) (event : PiCloudEvent) :
    browserView (applyItems (items.map blurShown) event) = browserView (applyItems items event) := by
  have hpush : ∀ xs ys : ViewItems,
      browserView (xs.map blurShown ++ ys) = browserView (xs ++ ys) := by
    intro xs ys
    rw [browserView_append, browserView_append, browserView_blurShown]
  have hsame := browserView_blurShown items
  have hcall : ∀ k b, isCall k (view b) = isCall k b := by
    intro k b
    cases b <;> rfl
  have hhosted : ∀ k b, ItemBody.isHosted k (view b) = b.isHosted k := by
    intro k b
    cases b <;> rfl
  unfold applyItems
  cases event.body with
  | userInput input =>
    dsimp only
    rw [any_blurShown (by intro b; cases b <;> rfl)]
    split
    · exact hsame
    · exact hpush _ _
  | assistantTextDelta delta => exact appendText_blurShown items delta _
  | hostedToolStarted id =>
    dsimp only
    rw [any_blurShown (hhosted id)]
    split
    · exact hsame
    · exact hpush _ _
  | hostedToolCompleted id outcome action =>
    refine updateMatching_blurShown (hhosted id) (fun x => ?_) items _
    obtain ⟨key, page, cursor, recovered, body⟩ := x
    cases body <;> rfl
  | toolCallPreparing id name =>
    dsimp only
    rw [any_blurShown (hcall id)]
    split
    · exact hsame
    · exact hpush _ _
  | toolStarted id name input step =>
    refine updateMatching_blurShown (hcall id) (fun x => ?_) items _
    obtain ⟨key, page, cursor, recovered, body⟩ := x
    cases body <;> rfl
  | toolCompleted id outcome output step =>
    refine updateMatching_blurShown (hcall id) (fun x => ?_) items _
    obtain ⟨key, page, cursor, recovered, body⟩ := x
    cases body <;> rfl
  | uiNotification message level => exact hpush _ _
  | contextCompactionStarted reason => exact hpush _ _
  | contextCompactionCompleted result => exact completeCompaction_blurShown items result _
  | modelSamplingRetryScheduled retry =>
    dsimp only
    rw [dropPreparations_blurShown]
    exact hpush _ _
  | modelSamplingCompleted step outcome stopReason =>
    dsimp only
    rw [dropPreparations_blurShown]
    split
    · exact browserView_map (fun x => view_settleHosted _ _ x.body) _
    · exact hsame
  | turnCompleted stopReason =>
    dsimp only
    rw [dropPreparations_blurShown]
    exact browserView_map (fun x => view_settleHosted _ _ x.body) _
  | turnFailed failure =>
    dsimp only
    rw [dropPreparations_blurShown]
    refine browserView_map (fun x => ?_) _
    show view (ItemBody.settleHosted _ _ (ItemBody.abandon _ _ _ (view x.body))) = _
    rw [← view_settleHosted, view_abandon, view_settleHosted]
    rfl
  | turnCancelled cancellation =>
    dsimp only
    rw [dropPreparations_blurShown]
    refine browserView_map (fun x => ?_) _
    show view (ItemBody.settleHosted _ _ (ItemBody.abandon _ _ _ (view x.body))) = _
    rw [← view_settleHosted, view_abandon, view_settleHosted]
    rfl
  | turnStarted kind origin => exact hsame
  | sessionStateChanged a b reason => exact hsame
  | modelSamplingStarted step => exact hsame

end Blur

/-! ## Items that name calls and searches once -/

inductive ItemKey where
  | call (toolCallId : JsString)
  | hosted (activityId : JsString)
deriving DecidableEq

/-- The call or the search an item is about. -/
def itemKey : ItemBody → Option ItemKey
  | .tool i => some (.call i.toolCallId)
  | .toolPreparing i => some (.call i.toolCallId)
  | .hostedSearch i => some (.hosted i.activityId)
  | _ => none

def keys (items : Items) : List ItemKey := items.filterMap (fun item => itemKey item.body)

def Unique (items : Items) : Prop := (keys items).Nodup

theorem keys_append (xs ys : Items) : keys (xs ++ ys) = keys xs ++ keys ys :=
  List.filterMap_append

theorem isCall_iff (k : JsString) (b : ItemBody) :
    isCall k b = true ↔ itemKey b = some (.call k) := by
  cases b <;> simp [isCall, itemKey, ItemBody.isTool, ItemBody.isPreparing]

theorem isPreparing_key {k : JsString} {b : ItemBody} (h : b.isPreparing k = true) :
    itemKey b = some (.call k) := (isCall_iff k b).mp (by simp [isCall, h])

theorem isHosted_iff (k : JsString) (b : ItemBody) :
    b.isHosted k = true ↔ itemKey b = some (.hosted k) := by
  cases b <;> simp [ItemBody.isHosted, itemKey]

theorem mem_keys {k : ItemKey} {items : Items} :
    k ∈ keys items ↔ ∃ x ∈ items, itemKey x.body = some k := List.mem_filterMap

theorem findItem_some {p : ItemBody → Bool} {items : Items} {i : Nat}
    (h : findItem p items = some i) :
    ∃ before, ∃ x : ConversationTranscriptItem, ∃ after, items = before ++ x :: after ∧ before.length = i ∧ p x.body = true ∧
      ∀ y ∈ before, p y.body = false := by
  unfold findItem at h
  induction items generalizing i with
  | nil => cases h
  | cons y ys ih =>
    rw [List.findIdx?_cons] at h
    cases hy : p y.body with
    | true =>
      rw [hy] at h
      cases h
      exact ⟨[], y, ys, rfl, rfl, hy, by simp⟩
    | false =>
      rw [hy] at h
      obtain ⟨j, hj, rfl⟩ := Option.map_eq_some_iff.mp h
      obtain ⟨before, x, after, rfl, rfl, hx, hb⟩ := ih hj
      refine ⟨y :: before, x, after, rfl, rfl, hx, fun z hz => ?_⟩
      rcases List.mem_cons.mp hz with rfl | hz
      · exact hy
      · exact hb z hz

theorem findItem_none {p : ItemBody → Bool} {items : Items} :
    findItem p items = none ↔ ∀ x ∈ items, p x.body = false := by
  simp [findItem, List.findIdx?_eq_none_iff]

/-- The items around one that names `k` do not name it. -/
theorem Unique.around {before after : Items} {x : ConversationTranscriptItem} {k : ItemKey}
    (h : Unique (before ++ x :: after)) (hx : itemKey x.body = some k) :
    k ∉ keys before ∧ k ∉ keys after := by
  unfold Unique at h
  have hkeys : keys (x :: after) = k :: keys after := by simp [keys, hx]
  rw [keys_append, hkeys] at h
  have h' := List.nodup_append.mp h
  refine ⟨fun hk => ?_, (List.nodup_cons.mp h'.2.1).1⟩
  exact absurd rfl (h'.2.2 k hk k (List.mem_cons_self ..))

theorem not_call_of_not_mem {k : JsString} {items : Items} (h : ItemKey.call k ∉ keys items) :
    ∀ x ∈ items, isCall k x.body = false := by
  intro x hx
  cases hc : isCall k x.body with
  | false => rfl
  | true => exact absurd (mem_keys.mpr ⟨x, hx, (isCall_iff k _).mp hc⟩) h

theorem not_tool_of_not_call {k : JsString} {b : ItemBody} (h : isCall k b = false) :
    b.isTool k = false ∧ b.isPreparing k = false := by
  simpa [isCall] using h

/-! ## One event -/

def shown (item : ConversationTranscriptItem) : TranscriptItem := .ofBody [] item.body

section Shown

variable {items : Items} {p : ItemBody → Bool}

theorem any_shown (items : Items) (p : ItemBody → Bool) :
    ViewItems.any (items.map shown) p = anyItem p items := by
  simp [ViewItems.any, anyItem, List.any_map, Function.comp_def, shown, TranscriptItem.ofBody]

theorem findIdx_shown (items : Items) (p : ItemBody → Bool) :
    (items.map shown).findIdx? (fun item => p item.body) = findItem p items := by
  simp [findItem, List.findIdx?_map, Function.comp_def, shown, TranscriptItem.ofBody]

theorem browserView_shown (items : Items) : browserView (items.map shown) = serverView items := by
  simp [browserView, serverView, shown, TranscriptItem.ofBody]

theorem browserView_push (items : Items) (key : JsString) (b : ItemBody) :
    browserView (items.map shown ++ [TranscriptItem.ofBody key b]) = serverView (pushItem items b) := by
  simp [browserView, serverView, pushItem, shown, TranscriptItem.ofBody]

theorem browserView_modify_shown {f : TranscriptItem → TranscriptItem}
    {g : ConversationTranscriptItem → ConversationTranscriptItem}
    (hfg : ∀ x, view (f (shown x)).body = view (g x).body) (items : Items) (i : Nat) :
    browserView ((items.map shown).modify i f) = serverView (items.modify i g) := by
  unfold browserView serverView
  induction items generalizing i with
  | nil => simp
  | cons x xs ih =>
    cases i with
    | zero => simpa [shown, TranscriptItem.ofBody] using hfg x
    | succ i => simpa [shown, TranscriptItem.ofBody] using ih i

theorem browserView_map_shown {f : TranscriptItem → TranscriptItem}
    {g : ConversationTranscriptItem → ConversationTranscriptItem}
    (hfg : ∀ x, view (f (shown x)).body = view (g x).body) (items : Items) :
    browserView ((items.map shown).map f) = serverView (items.map g) := by
  simp [browserView, serverView, hfg]

theorem dropPreparations_shown (items : Items) :
    dropPreparations (items.map shown) =
      (items.filter (fun item => !item.body.isAnyPreparing)).map shown := by
  simp [dropPreparations, List.filter_map, Function.comp_def, shown, TranscriptItem.ofBody]

theorem map_unmatched {f : TranscriptItem → TranscriptItem} (h : ∀ x ∈ items, p x.body = false) :
    browserView ((items.map shown).map (fun item => if p item.body then f item else item)) =
      serverView items := by
  unfold browserView serverView
  rw [List.map_map, List.map_map]
  refine List.map_congr_left (fun x hx => ?_)
  have hpx : p (shown x).body = false := h x hx
  simp only [Function.comp_apply, hpx]
  rfl

/-- Updating every item that `p` picks, where it picks one. -/
theorem updateMatching_split {f : TranscriptItem → TranscriptItem} {new : TranscriptItem}
    {before after : Items} {x : ConversationTranscriptItem} (hx : p x.body = true)
    (hb : ∀ y ∈ before, p y.body = false) (ha : ∀ y ∈ after, p y.body = false) :
    browserView (updateMatching ((before ++ x :: after).map shown) p f new) =
      serverView before ++ view (f (shown x)).body :: serverView after := by
  have hany : anyItem p (before ++ x :: after) = true := by simp [anyItem, hx]
  have hpx : p (shown x).body = true := hx
  unfold updateMatching
  rw [any_shown, hany, if_pos rfl, List.map_append, List.map_append, browserView_append,
    map_unmatched hb, List.map_cons, List.map_cons, if_pos hpx]
  show _ ++ (view (f (shown x)).body :: browserView _) = _
  rw [map_unmatched ha]

theorem updateMatching_none {f : TranscriptItem → TranscriptItem} {key : JsString} {b : ItemBody}
    (h : ∀ x ∈ items, p x.body = false) :
    browserView (updateMatching (items.map shown) p f (.ofBody key b)) =
      serverView (pushItem items b) := by
  have hany : anyItem p items = false := by simpa [anyItem] using h
  unfold updateMatching
  rw [any_shown, hany]
  exact browserView_push items key b

theorem modify_split {g : ConversationTranscriptItem → ConversationTranscriptItem}
    (before after : Items) (x : ConversationTranscriptItem) :
    (before ++ x :: after).modify before.length g = before ++ g x :: after := by
  induction before with
  | nil => rfl
  | cons y ys ih => simpa using ih

theorem serverView_split (before after : Items) (x : ConversationTranscriptItem) :
    serverView (before ++ x :: after) = serverView before ++ view x.body :: serverView after := by
  simp [serverView]

/-- Where `p` picks at most one item, updating all that it picks is updating the first. -/
theorem updateMatching_shown {f : TranscriptItem → TranscriptItem}
    {g : ConversationTranscriptItem → ConversationTranscriptItem} {key : JsString} {b : ItemBody}
    (hfg : ∀ x ∈ items, p x.body = true → view (f (shown x)).body = view (g x).body)
    (hone : ∀ before (x : ConversationTranscriptItem) after, items = before ++ x :: after → p x.body = true →
      ∀ y ∈ after, p y.body = false) :
    browserView (updateMatching (items.map shown) p f (.ofBody key b)) =
      serverView (match findItem p items with
        | none => pushItem items b
        | some i => items.modify i g) := by
  cases hfind : findItem p items with
  | none => exact updateMatching_none (findItem_none.mp hfind)
  | some i =>
    obtain ⟨before, x, after, rfl, rfl, hx, hb⟩ := findItem_some hfind
    rw [updateMatching_split hx hb (hone before x after rfl hx)]
    dsimp only
    rw [modify_split, serverView_split, hfg x (by simp) hx]

theorem findItem_congr {q : ItemBody → Bool} (h : ∀ x ∈ items, p x.body = q x.body) :
    findItem p items = findItem q items := by
  unfold findItem
  induction items with
  | nil => rfl
  | cons x xs ih =>
    rw [List.findIdx?_cons, List.findIdx?_cons, h x (by simp),
      ih (fun y hy => h y (List.mem_cons_of_mem _ hy))]

end Shown

def isPreparingNamed (toolCallId toolName : JsString) : ItemBody → Bool
  | .toolPreparing i => i.toolCallId == toolCallId && i.toolName == toolName
  | _ => false

def isRunningSearch : ItemBody → Bool
  | .hostedSearch i => i.status == .running
  | _ => false

/-- The events of which the browser and the server make the same:
a call is prepared before it has a tool; a preparation that a start turns into a tool is the last
item, and so is one that a completion turns into a tool, which is called "unknown"; nothing is being
prepared when a retry is scheduled; and a search starts again only while it runs. -/
def steady (items : Items) (event : PiCloudEvent) : Bool :=
  match event.body with
  | .toolCallPreparing id _ => !anyItem (ItemBody.isTool id) items
  | .toolStarted id _ _ _ => !anyItem (ItemBody.isPreparing id) items ||
      items.getLast?.any (fun last => last.body.isPreparing id)
  | .toolCompleted id _ _ _ => !anyItem (ItemBody.isPreparing id) items ||
      items.getLast?.any (fun last => isPreparingNamed id (ascii "unknown") last.body)
  | .modelSamplingRetryScheduled _ => !anyItem ItemBody.isAnyPreparing items
  | .hostedToolStarted id =>
    items.all (fun item => !item.body.isHosted id || isRunningSearch item.body)
  | _ => true

theorem preparing_split {items : Items} {id : JsString} (hu : Unique items) {i : Nat}
    (h : findItem (ItemBody.isPreparing id) items = some i) :
    ∃ before, ∃ x : ConversationTranscriptItem, ∃ after, items = before ++ x :: after ∧ before.length = i ∧
      x.body.isPreparing id = true ∧ (∀ y ∈ before, isCall id y.body = false) ∧
      ∀ y ∈ after, isCall id y.body = false := by
  obtain ⟨before, x, after, rfl, hi, hx, _⟩ := findItem_some h
  obtain ⟨hb, ha⟩ := hu.around (isPreparing_key hx)
  exact ⟨before, x, after, rfl, hi, hx, not_call_of_not_mem hb, not_call_of_not_mem ha⟩

theorem anyItem_of_findItem {p : ItemBody → Bool} {items : Items} {i : Nat}
    (h : findItem p items = some i) : anyItem p items = true := by
  obtain ⟨before, x, after, rfl, _, hx, _⟩ := findItem_some h
  simp [anyItem, hx]

theorem anyItem_of_findItem_none {p : ItemBody → Bool} {items : Items}
    (h : findItem p items = none) : anyItem p items = false := by
  simpa [anyItem] using findItem_none.mp h

theorem dropPreparing_split {before after : Items} {x : ConversationTranscriptItem} {id : JsString}
    (h : findItem (ItemBody.isPreparing id) (before ++ x :: after) = some before.length) :
    dropPreparing (before ++ x :: after) id = before ++ after := by
  unfold dropPreparing
  rw [h]
  dsimp only
  rw [List.eraseIdx_append_of_length_le (Nat.le_refl _)]
  simp

theorem call_prepared {before after : Items} {x : ConversationTranscriptItem} {id : JsString}
    {f : TranscriptItem → TranscriptItem} {g : ItemBody → ItemBody} {new : TranscriptItem}
    {tool : ToolItem}
    (hfind : findItem (ItemBody.isPreparing id) (before ++ x :: after) = some before.length)
    (hx : x.body.isPreparing id = true) (hb : ∀ y ∈ before, isCall id y.body = false)
    (ha : ∀ y ∈ after, isCall id y.body = false) :
    browserView (updateMatching ((before ++ x :: after).map shown) (isCall id) f new) =
        serverView before ++ view (f (shown x)).body :: serverView after ∧
      serverView (projectTool (before ++ x :: after) id g tool) =
        serverView before ++ serverView after ++ [view (.tool tool)] := by
  have hcall : isCall id x.body = true := by simp [isCall, hx]
  refine ⟨updateMatching_split hcall hb ha, ?_⟩
  have hnone : findItem (ItemBody.isTool id) (before ++ after) = none := by
    rw [findItem_none]
    intro y hy
    rcases List.mem_append.mp hy with hy | hy
    · exact (not_tool_of_not_call (hb y hy)).1
    · exact (not_tool_of_not_call (ha y hy)).1
  simp [projectTool, dropPreparing_split hfind, hnone, serverView, pushItem]

theorem call_unprepared {items : Items} {id : JsString} (hu : Unique items)
    (hnone : findItem (ItemBody.isPreparing id) items = none)
    {f : TranscriptItem → TranscriptItem} {g : ItemBody → ItemBody} {key : JsString}
    {tool : ToolItem}
    (hfg : ∀ historyCursor i,
      view (f (shown { historyCursor, body := .tool i })).body = view (g (.tool i))) :
    browserView (updateMatching (items.map shown) (isCall id) f (.ofBody key (.tool tool))) =
      serverView (projectTool items id g tool) := by
  have hdrop : dropPreparing items id = items := by
    unfold dropPreparing
    rw [hnone]
  have hsame : ∀ x ∈ items, isCall id x.body = x.body.isTool id := by
    intro x hx
    simp [isCall, findItem_none.mp hnone x hx]
  unfold projectTool
  dsimp only
  rw [hdrop, ← findItem_congr hsame]
  refine updateMatching_shown (fun x hx hcall => ?_) ?_
  · rw [hsame x hx] at hcall
    obtain ⟨cursor, body⟩ := x
    cases body with
    | tool i => exact hfg _ i
    | _ => cases hcall
  · rintro before x after rfl hcall
    exact not_call_of_not_mem (hu.around ((isCall_iff id _).mp hcall)).2

theorem cons_eq_concat {α : Type} {v w : α} {xs : List α} (hv : v ∉ xs) :
    v :: xs = xs ++ [w] ↔ xs = [] ∧ v = w := by
  cases xs with
  | nil => simp
  | cons x xs =>
    refine ⟨fun h => ?_, fun h => nomatch h.1⟩
    rw [List.cons_append] at h
    injection h with hx
    exact absurd (hx ▸ List.mem_cons_self ..) hv

theorem getLast_split {p : ItemBody → Bool} {before after : Items} {x : ConversationTranscriptItem}
    (ha : ∀ y ∈ after, p y.body = false) :
    (before ++ x :: after).getLast?.any (fun last => p last.body) = true ↔
      after = [] ∧ p x.body = true := by
  rcases List.eq_nil_or_concat after with rfl | ⟨init, y, rfl⟩
  · simp
  · rw [List.concat_eq_append] at ha ⊢
    have hy := ha y (by simp)
    rw [← List.cons_append, ← List.append_assoc, List.getLast?_concat, Option.any_some, hy]
    simp

theorem moved_iff {before after : Items} {v w : ItemBody} {id : JsString}
    (hv : isCall id v = true) (ha : ∀ y ∈ after, isCall id y.body = false) :
    serverView before ++ v :: serverView after = serverView before ++ serverView after ++ [w] ↔
      after = [] ∧ v = w := by
  have hnot : v ∉ serverView after := by
    intro hmem
    obtain ⟨y, hy, rfl⟩ := List.mem_map.mp hmem
    have hseen : isCall id (view y.body) = isCall id y.body := by cases y.body <;> rfl
    rw [hseen, ha y hy] at hv
    cases hv
  rw [List.append_assoc, List.append_cancel_left_eq, cons_eq_concat hnot]
  simp [serverView]

/-- The browser and the server show the same after an event. -/
def Same (items : Items) (event : PiCloudEvent) : Prop :=
  browserView (applyItems (items.map shown) event) = serverView (projectItems none items event)

theorem started_iff {items : Items} {event : PiCloudEvent} {id name : JsString} {input : Json}
    {step : ToolStep} (hbody : event.body = .toolStarted id name input step) (hu : Unique items) :
    Same items event ↔ steady items event = true := by
  unfold Same applyItems projectItems steady
  rw [hbody]
  dsimp only
  cases hfind : findItem (ItemBody.isPreparing id) items with
  | none =>
    simp only [anyItem_of_findItem_none hfind, Bool.not_false, Bool.true_or, iff_true]
    exact call_unprepared hu hfind fun _ _ => rfl
  | some i =>
    obtain ⟨before, x, after, rfl, rfl, hx, hb, ha⟩ := preparing_split hu hfind
    rw [anyItem_of_findItem hfind, Bool.not_true, Bool.false_or,
      getLast_split (fun y hy => (not_tool_of_not_call (ha y hy)).2)]
    obtain ⟨hbrowser, hserver⟩ := call_prepared hfind hx hb ha
    rw [hbrowser, hserver]
    obtain ⟨cursor, body⟩ := x
    cases body with
    | toolPreparing i =>
      have hid : i.toolCallId = id := by simpa [ItemBody.isPreparing] using hx
      rw [moved_iff _ ha]
      · simp [shown, TranscriptItem.ofBody, startTool, view, ItemBody.isPreparing, hid]
      · simp [shown, TranscriptItem.ofBody, startTool, view, isCall, ItemBody.isTool, hid]
    | _ => cases hx

theorem completed_iff {items : Items} {event : PiCloudEvent} {id : JsString}
    {outcome : ToolOutcome} {output : Option Json} {step : ToolStep}
    (hbody : event.body = .toolCompleted id outcome output step) (hu : Unique items) :
    Same items event ↔ steady items event = true := by
  unfold Same applyItems projectItems steady
  rw [hbody]
  dsimp only
  cases hfind : findItem (ItemBody.isPreparing id) items with
  | none =>
    simp only [anyItem_of_findItem_none hfind, Bool.not_false, Bool.true_or, iff_true]
    exact call_unprepared hu hfind fun _ _ => rfl
  | some i =>
    obtain ⟨before, x, after, rfl, rfl, hx, hb, ha⟩ := preparing_split hu hfind
    have hafter : ∀ y ∈ after, isPreparingNamed id (ascii "unknown") y.body = false := by
      intro y hy
      have hprep := (not_tool_of_not_call (ha y hy)).2
      cases hbody : y.body with
      | toolPreparing i =>
        rw [hbody] at hprep
        simp only [ItemBody.isPreparing] at hprep
        simp [isPreparingNamed, hprep]
      | _ => rfl
    rw [anyItem_of_findItem hfind, Bool.not_true, Bool.false_or, getLast_split hafter]
    obtain ⟨hbrowser, hserver⟩ := call_prepared hfind hx hb ha
    rw [hbrowser, hserver]
    obtain ⟨cursor, body⟩ := x
    cases body with
    | toolPreparing i =>
      have hid : i.toolCallId = id := by simpa [ItemBody.isPreparing] using hx
      rw [moved_iff _ ha]
      · simp [shown, TranscriptItem.ofBody, TranscriptItem.mapBody, completeTool, view,
          isPreparingNamed, hid]
      · simp [shown, TranscriptItem.ofBody, TranscriptItem.mapBody, completeTool, view, isCall,
          ItemBody.isTool, hid]
    | _ => cases hx

theorem text_same (items : Items) (delta : TextDelta) (seq : Nat) :
    browserView (appendText (items.map shown) delta seq) =
      serverView (projectText items delta seq) := by
  have htail : browserView (appendTextTail (items.map shown) delta seq) =
      serverView (projectTextTail items delta seq) := by
    have hlast : (items.map shown).getLast?.any (fun last => last.body.continuedBy delta) =
        items.getLast?.any (fun last => last.body.continuedBy delta) := by
      rw [List.getLast?_map]
      cases items.getLast? <;> rfl
    unfold appendTextTail projectTextTail
    rw [hlast, List.length_map]
    split
    · exact browserView_modify_shown (fun _ => rfl) items _
    · exact browserView_push items _ _
  unfold appendText projectText
  cases delta.messageId with
  | none => exact htail
  | some k =>
    dsimp only
    rw [findIdx_shown]
    cases findItem (ItemBody.isText k) items with
    | none => exact htail
    | some i => exact browserView_modify_shown (fun _ => rfl) items i

theorem compaction_same (items : Items) (result : CompactionResult) (seq : Nat) :
    browserView (completeCompaction (items.map shown) result seq) =
      serverView (projectCompacted none items result seq) := by
  have hindex : compactedIndex none items result =
      findLastItem ItemBody.isRunningCompaction items := by
    unfold compactedIndex
    split <;> first | rfl | simp_all
  unfold completeCompaction findLastRunningCompaction projectCompacted
  rw [← List.map_reverse, findIdx_shown, List.length_map, hindex]
  show browserView (match findLastItem ItemBody.isRunningCompaction items with
    | none => _
    | some i => _) = _
  cases findLastItem ItemBody.isRunningCompaction items with
  | none => exact browserView_push items _ _
  | some i =>
    refine browserView_modify_shown (fun x => ?_) items i
    obtain ⟨cursor, body⟩ := x
    cases body <;> rfl

theorem hosted_same {items : Items} {event : PiCloudEvent} {id : JsString}
    {outcome : HostedToolOutcome} {action : Option Json}
    (hbody : event.body = .hostedToolCompleted id outcome action) (hu : Unique items) :
    Same items event := by
  unfold Same applyItems projectItems projectHosted
  rw [hbody]
  dsimp only
  refine updateMatching_shown (fun x _ hx => ?_) ?_
  · obtain ⟨cursor, body⟩ := x
    cases body with
    | hostedSearch i =>
      have hid : i.activityId = id := by simpa [ItemBody.isHosted] using hx
      simp [shown, TranscriptItem.ofBody, TranscriptItem.mapBody, completeHosted, replaceHosted,
        view, hid]
    | _ => cases hx
  · rintro before x after rfl hx y hy
    have hnot := (hu.around ((isHosted_iff id _).mp hx)).2
    cases hp : y.body.isHosted id with
    | false => rfl
    | true => exact absurd (mem_keys.mpr ⟨y, hy, (isHosted_iff id _).mp hp⟩) hnot

theorem searching_iff {items : Items} {event : PiCloudEvent} {id : JsString}
    (hbody : event.body = .hostedToolStarted id) (hu : Unique items) :
    Same items event ↔ steady items event = true := by
  unfold Same applyItems projectItems projectHosted steady
  rw [hbody]
  dsimp only
  rw [any_shown]
  cases hfind : findItem (ItemBody.isHosted id) items with
  | none =>
    have hno := findItem_none.mp hfind
    have hany : anyItem (ItemBody.isHosted id) items = false := by simpa [anyItem] using hno
    rw [hany]
    have hsteady : items.all (fun x => !x.body.isHosted id || isRunningSearch x.body) = true := by
      rw [List.all_eq_true]
      intro x hx
      simp [hno x hx]
    rw [hsteady]
    exact iff_of_true (browserView_push items _ _) rfl
  | some i =>
    obtain ⟨before, x, after, rfl, rfl, hx, hb⟩ := findItem_some hfind
    have hnot := (hu.around ((isHosted_iff id _).mp hx)).2
    have ha : ∀ y ∈ after, y.body.isHosted id = false := by
      intro y hy
      cases hp : y.body.isHosted id with
      | false => rfl
      | true => exact absurd (mem_keys.mpr ⟨y, hy, (isHosted_iff id _).mp hp⟩) hnot
    rw [anyItem_of_findItem hfind, if_pos rfl, browserView_shown]
    dsimp only
    rw [modify_split, serverView_split, serverView_split, List.append_cancel_left_eq,
      List.cons.injEq]
    have hall : (before ++ x :: after).all
        (fun y => !y.body.isHosted id || isRunningSearch y.body) = isRunningSearch x.body := by
      have h1 : before.all (fun y => !y.body.isHosted id || isRunningSearch y.body) = true := by
        rw [List.all_eq_true]; intro y hy; simp [hb y hy]
      have h2 : after.all (fun y => !y.body.isHosted id || isRunningSearch y.body) = true := by
        rw [List.all_eq_true]; intro y hy; simp [ha y hy]
      rw [List.all_append, List.all_cons, h1, h2, hx]
      simp
    rw [hall]
    obtain ⟨cursor, body⟩ := x
    cases body with
    | hostedSearch i =>
      have hid : i.activityId = id := by simpa [ItemBody.isHosted] using hx
      simp [replaceHosted, view, isRunningSearch, hid]
    | _ => cases hx

theorem preparing_iff {items : Items} {event : PiCloudEvent} {id name : JsString}
    (hbody : event.body = .toolCallPreparing id name) (hu : Unique items) :
    Same items event ↔ steady items event = true := by
  unfold Same applyItems projectItems steady
  rw [hbody]
  dsimp only
  have hcall : anyItem (isCall id) items =
      (anyItem (ItemBody.isTool id) items || anyItem (ItemBody.isPreparing id) items) := by
    rw [Bool.eq_iff_iff]
    simp only [anyItem, isCall, List.any_eq_true, Bool.or_eq_true]
    grind
  rw [any_shown, hcall]
  cases hprep : findItem (ItemBody.isPreparing id) items with
  | some i =>
    obtain ⟨before, x, after, rfl, _, hx, hb, ha⟩ := preparing_split hu hprep
    have hx' : x.body.isTool id = false := by
      cases hbody : x.body <;> simp_all [ItemBody.isPreparing, ItemBody.isTool]
    have htool : anyItem (ItemBody.isTool id) (before ++ x :: after) = false := by
      simp only [anyItem, List.any_eq_false, List.mem_append, List.mem_cons]
      rintro y (hy | rfl | hy)
      · simp [(not_tool_of_not_call (hb y hy)).1]
      · simp [hx']
      · simp [(not_tool_of_not_call (ha y hy)).1]
    rw [anyItem_of_findItem hprep, htool]
    exact iff_of_true (browserView_shown _) rfl
  | none =>
    have hno : anyItem (ItemBody.isPreparing id) items = false := by
      simpa [anyItem] using findItem_none.mp hprep
    rw [hno, Bool.or_false]
    cases anyItem (ItemBody.isTool id) items with
    | false => exact iff_of_true (browserView_push items _ _) rfl
    | true =>
      refine iff_of_false (fun h => ?_) (by simp)
      have := congrArg List.length h
      simp [browserView, serverView, pushItem] at this

theorem retry_iff {items : Items} {event : PiCloudEvent} {retry : SamplingRetry}
    (hbody : event.body = .modelSamplingRetryScheduled retry) :
    Same items event ↔ steady items event = true := by
  unfold Same applyItems projectItems steady
  rw [hbody]
  dsimp only
  rw [dropPreparations_shown, browserView_push]
  have hfilter : anyItem ItemBody.isAnyPreparing items = false ↔
      items.filter (fun item => !item.body.isAnyPreparing) = items := by
    simp [anyItem, List.filter_eq_self]
  rw [Bool.not_eq_true', hfilter]
  refine ⟨fun h => ?_, fun h => by rw [h]⟩
  have hlen := congrArg List.length h
  simp only [serverView, pushItem, List.length_map, List.length_append,
    Nat.add_right_cancel_iff] at hlen
  exact List.filter_eq_self.mpr (List.length_filter_eq_length_iff.mp hlen)

theorem plain_same {items : Items} {event : PiCloudEvent}
    (h : match event.body with
      | .userInput _ | .assistantTextDelta _ | .uiNotification _ _ | .contextCompactionStarted _
      | .contextCompactionCompleted _ | .modelSamplingCompleted _ _ _ | .turnStarted _ _
      | .sessionStateChanged _ _ _ | .modelSamplingStarted _ => True
      | _ => False) :
    Same items event := by
  unfold Same applyItems projectItems
  cases hbody : event.body with
  | userInput input =>
    dsimp only
    rw [any_shown]
    split
    · exact browserView_shown items
    · exact browserView_push items _ _
  | assistantTextDelta delta => exact text_same items delta _
  | uiNotification message level => exact browserView_push items _ _
  | contextCompactionStarted reason => exact browserView_push items _ _
  | contextCompactionCompleted result => exact compaction_same items result _
  | modelSamplingCompleted step outcome stopReason =>
    dsimp only
    rw [dropPreparations_shown]
    split
    · exact browserView_map_shown (fun _ => rfl) _
    · exact browserView_shown items
  | turnStarted kind origin => exact browserView_shown items
  | sessionStateChanged a b reason => exact browserView_shown items
  | modelSamplingStarted step => exact browserView_shown items
  | _ => rw [hbody] at h; cases h

theorem same_iff_steady {items : Items} {event : PiCloudEvent} (hu : Unique items)
    (hterm : event.body.isTerminal = false) :
    Same items event ↔ steady items event = true := by
  cases hbody : event.body with
  | toolStarted id name input step => exact started_iff hbody hu
  | toolCompleted id outcome output step => exact completed_iff hbody hu
  | toolCallPreparing id name => exact preparing_iff hbody hu
  | hostedToolStarted id => exact searching_iff hbody hu
  | modelSamplingRetryScheduled retry => exact retry_iff hbody
  | hostedToolCompleted id outcome action =>
    exact iff_of_true (hosted_same hbody hu) (by simp [steady, hbody])
  | turnCompleted stopReason => rw [hbody] at hterm; cases hterm
  | turnFailed failure => rw [hbody] at hterm; cases hterm
  | turnCancelled cancellation => rw [hbody] at hterm; cases hterm
  | _ => exact iff_of_true (plain_same (by rw [hbody]; trivial)) (by simp [steady, hbody])

/-! ## Calls and searches stay unique -/

theorem keys_push (items : Items) (b : ItemBody) :
    keys (pushItem items b) = keys items ++ (itemKey b).toList := by
  unfold pushItem
  rw [keys_append]
  cases h : itemKey b <;> simp [keys, h]

theorem keys_modify {f : ConversationTranscriptItem → ConversationTranscriptItem}
    (hf : ∀ x, itemKey (f x).body = itemKey x.body) (items : Items) (i : Nat) :
    keys (items.modify i f) = keys items := by
  unfold keys
  induction items generalizing i with
  | nil => simp
  | cons x xs ih =>
    cases i with
    | zero => simp [List.filterMap_cons, hf]
    | succ i => simp [List.filterMap_cons, ih]

theorem keys_map {f : ConversationTranscriptItem → ConversationTranscriptItem}
    (hf : ∀ x, itemKey (f x).body = itemKey x.body) (items : Items) :
    keys (items.map f) = keys items := by
  simp [keys, List.filterMap_map, hf]

theorem Unique.sublist {xs ys : Items} (h : Unique ys) (hs : xs.Sublist ys) : Unique xs :=
  List.Nodup.sublist (hs.filterMap _) h

theorem Unique.of_keys {xs ys : Items} (h : Unique ys) (hk : keys xs = keys ys) : Unique xs := by
  unfold Unique
  rw [hk]
  exact h

theorem Unique.push {items : Items} {b : ItemBody} (h : Unique items)
    (hb : ∀ k, itemKey b = some k → k ∉ keys items) : Unique (pushItem items b) := by
  unfold Unique
  rw [keys_push]
  cases hk : itemKey b with
  | none =>
    rw [Option.toList_none, List.append_nil]
    exact h
  | some k =>
    rw [Option.toList_some, List.nodup_append]
    refine ⟨h, by simp, ?_⟩
    intro a ha c hc hac
    rw [List.mem_singleton] at hc
    subst hc
    exact hb _ hk (hac ▸ ha)

theorem not_mem_keys_call {id : JsString} {items : Items}
    (h : ∀ x ∈ items, isCall id x.body = false) : ItemKey.call id ∉ keys items := by
  intro hmem
  obtain ⟨x, hx, hk⟩ := mem_keys.mp hmem
  have := (isCall_iff id x.body).mpr hk
  rw [h x hx] at this
  cases this

theorem dropPreparing_calls {items : Items} (h : Unique items) (id : JsString) :
    Unique (dropPreparing items id) ∧
      ∀ x ∈ dropPreparing items id, isCall id x.body = x.body.isTool id := by
  cases hfind : findItem (ItemBody.isPreparing id) items with
  | none =>
    have hdrop : dropPreparing items id = items := by unfold dropPreparing; rw [hfind]
    rw [hdrop]
    exact ⟨h, fun x hx => by simp [isCall, findItem_none.mp hfind x hx]⟩
  | some i =>
    obtain ⟨before, x, after, rfl, rfl, _, hb, ha⟩ := preparing_split h hfind
    rw [dropPreparing_split hfind]
    refine ⟨h.sublist (List.Sublist.append_left (List.sublist_cons_self ..) _), fun y hy => ?_⟩
    rcases List.mem_append.mp hy with hy | hy
    · rw [hb y hy, (not_tool_of_not_call (hb y hy)).1]
    · rw [ha y hy, (not_tool_of_not_call (ha y hy)).1]

theorem unique_tool {items : Items} (h : Unique items) (id : JsString) {f : ItemBody → ItemBody}
    (hf : ∀ b, itemKey (f b) = itemKey b) (tool : ToolItem) (hid : tool.toolCallId = id) :
    Unique (projectTool items id f tool) := by
  obtain ⟨hdrop, hcalls⟩ := dropPreparing_calls h id
  unfold projectTool
  dsimp only
  split
  · rename_i hnone
    refine hdrop.push (fun k hk => ?_)
    cases hk
    rw [hid]
    refine not_mem_keys_call (fun x hx => ?_)
    rw [hcalls x hx]
    exact findItem_none.mp hnone x hx
  · exact hdrop.of_keys (keys_modify (fun x => hf x.body) _ _)

theorem unique_text {items : Items} (h : Unique items) (delta : TextDelta) (seq : Nat) :
    Unique (projectText items delta seq) := by
  have htail : Unique (projectTextTail items delta seq) := by
    unfold projectTextTail
    split
    · refine h.of_keys (keys_modify (fun x => ?_) _ _)
      obtain ⟨cursor, body⟩ := x
      cases body <;> rfl
    · exact h.push (fun k hk => nomatch hk)
  unfold projectText
  split
  · exact htail
  · split
    · refine h.of_keys (keys_modify (fun x => ?_) _ _)
      obtain ⟨cursor, body⟩ := x
      cases body <;> rfl
    · exact htail

theorem unique_hosted {items : Items} (h : Unique items) (id : JsString) (seq : Nat)
    (status : HostedSearchStatus) (last : Option Nat) (action : Option Json) :
    Unique (projectHosted items id seq status last action) := by
  unfold projectHosted
  dsimp only
  split
  · rename_i hnone
    refine h.push (fun k hk hmem => ?_)
    cases hk
    obtain ⟨x, hx, hkey⟩ := mem_keys.mp hmem
    have := findItem_none.mp hnone x hx
    rw [(isHosted_iff id x.body).mpr hkey] at this
    cases this
  · rename_i i hfind
    obtain ⟨before, x, after, rfl, rfl, hx, _⟩ := findItem_some hfind
    rw [modify_split]
    refine h.of_keys ?_
    obtain ⟨cursor, body⟩ := x
    cases body with
    | hostedSearch i =>
      have hid : i.activityId = id := by simpa [ItemBody.isHosted] using hx
      simp [keys, replaceHosted, itemKey, hid]
    | _ => cases hx

theorem unique_step {items : Items} {event : PiCloudEvent} (h : Unique items)
    (hs : steady items event = true) : Unique (projectItems none items event) := by
  unfold projectItems
  cases hbody : event.body with
  | userInput input =>
    dsimp only
    split
    · exact h
    · exact h.push (fun k hk => by cases hk)
  | assistantTextDelta delta => exact unique_text h delta _
  | toolCallPreparing id name =>
    dsimp only
    split
    · exact h
    · rename_i hprep
      refine h.push (fun k hk => ?_)
      cases hk
      refine not_mem_keys_call (fun x hx => ?_)
      have htool : ∀ y ∈ items, y.body.isTool id = false := by
        simpa [steady, hbody, anyItem] using hs
      have hno : ∀ y ∈ items, y.body.isPreparing id = false := by simpa [anyItem] using hprep
      simp [isCall, htool x hx, hno x hx]
  | hostedToolStarted id => exact unique_hosted h ..
  | hostedToolCompleted id outcome action => exact unique_hosted h ..
  | toolStarted id name input step =>
    exact unique_tool h id (fun b => by cases b <;> rfl) _ rfl
  | toolCompleted id outcome output step =>
    exact unique_tool h id (fun b => by cases b <;> rfl) _ rfl
  | uiNotification message level => exact h.push (fun k hk => by cases hk)
  | contextCompactionStarted reason => exact h.push (fun k hk => by cases hk)
  | contextCompactionCompleted result =>
    dsimp only
    unfold projectCompacted
    split
    · exact h.push (fun k hk => by cases hk)
    · refine h.of_keys (keys_modify (fun x => ?_) _ _)
      obtain ⟨cursor, body⟩ := x
      cases body <;> rfl
  | modelSamplingCompleted step outcome stopReason =>
    dsimp only
    split
    · refine (h.sublist (List.filter_sublist ..)).of_keys (keys_map (fun x => ?_) _)
      obtain ⟨cursor, body⟩ := x
      cases body with
      | hostedSearch i =>
        simp only [ConversationTranscriptItem.mapBody, ItemBody.settleHosted]
        split <;> rfl
      | _ => rfl
    · exact h
  | modelSamplingRetryScheduled retry => exact h.push (fun k hk => by cases hk)
  | turnFailed failure =>
    refine h.of_keys (keys_map (fun x => ?_) _)
    obtain ⟨cursor, body⟩ := x
    cases body <;> simp only [ConversationTranscriptItem.mapBody, ItemBody.abandon] <;>
      first | rfl | (split <;> rfl)
  | turnCancelled cancellation =>
    refine h.of_keys (keys_map (fun x => ?_) _)
    obtain ⟨cursor, body⟩ := x
    cases body <;> simp only [ConversationTranscriptItem.mapBody, ItemBody.abandon] <;>
      first | rfl | (split <;> rfl)
  | turnStarted kind origin => exact h
  | sessionStateChanged a b reason => exact h
  | modelSamplingStarted step => exact h
  | turnCompleted stopReason => exact h

/-! ## The items of a turn in the browser -/

def itemsOf (state : SessionViewState) (turnId : JsString) : ViewItems :=
  ((state.turns.find? (fun turn => turn.turnId == turnId)).map TurnView.items).getD []

def Attends (state : SessionViewState) (sessionId : JsString) : Prop :=
  ∀ session ∈ state.session, session = sessionId

theorem applyTurn_turnId (event : PiCloudEvent) (turn : TurnView) :
    (applyTurn event turn).turnId = turn.turnId := by
  unfold applyTurn noteTurn
  cases event.body with
  | turnStarted kind origin => cases origin <;> cases kind <;> rfl
  | userInput input => dsimp only; split <;> rfl
  | _ => rfl

theorem itemsOf_updateTurn (turns : List TurnView) (turnId : JsString) (event : PiCloudEvent) :
    (((updateTurn turns turnId (applyTurn event)).find? (fun turn => turn.turnId == turnId)).map
        TurnView.items).getD [] =
      applyItems (((turns.find? (fun turn => turn.turnId == turnId)).map TurnView.items).getD [])
        event := by
  have hcompleted : ∀ turn : TurnView, (updateCompleted (applyTurn event) turn).turnId = turn.turnId ∧
      (updateCompleted (applyTurn event) turn).items = applyItems turn.items event := by
    intro turn
    unfold updateCompleted
    split <;> exact ⟨applyTurn_turnId event turn, rfl⟩
  unfold updateTurn
  cases hfind : turns.findIdx? (fun turn => turn.turnId == turnId) with
  | none =>
    have hno : ∀ turn ∈ turns, (turn.turnId == turnId) = false := by
      simpa [List.findIdx?_eq_none_iff] using hfind
    have hnone : turns.find? (fun turn => turn.turnId == turnId) = none := by
      rw [List.find?_eq_none]
      intro turn hturn
      simp [hno turn hturn]
    have hid : (applyTurn event (unknownTurn turnId)).turnId = turnId := applyTurn_turnId ..
    dsimp only
    rw [List.find?_append, hnone, List.find?_singleton, hid]
    simp [applyTurn, unknownTurn]
  | some i =>
    dsimp only
    induction turns generalizing i with
    | nil => cases hfind
    | cons turn turns ih =>
      rw [List.findIdx?_cons] at hfind
      cases hturn : turn.turnId == turnId with
      | true =>
        rw [hturn] at hfind
        cases hfind
        have hid : ((updateCompleted (applyTurn event) turn).turnId == turnId) = true := by
          rw [(hcompleted turn).1]
          exact hturn
        simp [hturn, hid, (hcompleted turn).2]
      | false =>
        rw [hturn] at hfind
        obtain ⟨j, hj, rfl⟩ := Option.map_eq_some_iff.mp hfind
        rw [List.modify_succ_cons, List.find?_cons, List.find?_cons, hturn]
        exact ih j hj

theorem itemsOf_tagged (turns : List TurnView) (turnId pageKey : JsString) :
    browserView ((((turns.map (tagTail turnId pageKey)).find?
        (fun turn => turn.turnId == turnId)).map TurnView.items).getD []) =
      browserView (((turns.find? (fun turn => turn.turnId == turnId)).map TurnView.items).getD []) := by
  have htag : ∀ turn : TurnView, (tagTail turnId pageKey turn).turnId = turn.turnId ∧
      browserView (tagTail turnId pageKey turn).items = browserView turn.items := by
    intro turn
    unfold tagTail
    split
    · refine ⟨rfl, ?_⟩
      unfold browserView
      rw [List.map_map]
      refine List.map_congr_left (fun x _ => ?_)
      simp only [Function.comp_apply]
      split <;> rfl
    · exact ⟨rfl, rfl⟩
  induction turns with
  | nil => rfl
  | cons turn turns ih =>
    rw [List.map_cons, List.find?_cons, List.find?_cons, (htag turn).1]
    cases turn.turnId == turnId with
    | true => exact (htag turn).2
    | false => exact ih

/-- An event of the turn changes its items as `applyItems` says, and the session stays. -/
theorem itemsOf_applyEvent {state : SessionViewState} {event : PiCloudEvent} {turnId : JsString}
    (hs : Attends state event.sessionId) (ht : event.turnId = some turnId) :
    browserView (itemsOf (applyEvent state event) turnId) =
        browserView (applyItems (itemsOf state turnId) event) ∧
      (applyEvent state event).session = state.session := by
  have hsession : state.session.any (fun session => event.sessionId != session) = false := by
    cases h : state.session with
    | none => rfl
    | some session => simp [hs session h]
  unfold applyEvent
  rw [hsession, ht]
  simp only [Bool.false_eq_true, if_false]
  split
  · rename_i hstart
    refine ⟨?_, rfl⟩
    cases hbody : event.body with
    | turnStarted kind origin =>
      unfold applyItems
      rw [hbody]
    | _ => rw [hbody] at hstart; cases hstart.1
  · split
    · rename_i hbody
      refine ⟨?_, rfl⟩
      unfold applyItems
      rw [hbody]
      rfl
    · cases ‹some turnId = none›
    · rename_i heq _
      cases heq
      refine ⟨?_, rfl⟩
      unfold itemsOf
      dsimp only
      split
      · rw [itemsOf_updateTurn]
      · rw [itemsOf_tagged, itemsOf_updateTurn]

theorem itemsOf_loaded (conversation : ConversationDetail) (turnId : JsString) :
    browserView (itemsOf (loadConversation conversation) turnId) =
      serverView ((((conversation.turns.find? (fun turn => turn.turnId == turnId)).bind
        ConversationTurn.transcript).map ConversationTurnTranscript.items).getD []) := by
  have hturn : ∀ (pageKey : JsString) (turn : ConversationTurn),
      (loadTurn pageKey turn).turnId = turn.turnId ∧
        browserView (loadTurn pageKey turn).items =
          serverView ((turn.transcript.map ConversationTurnTranscript.items).getD []) := by
    intro pageKey turn
    unfold loadTurn
    cases turn.transcript with
    | none => exact ⟨rfl, rfl⟩
    | some t =>
      refine ⟨rfl, ?_⟩
      simp only [browserView, serverView, Option.map_some, Option.getD_some, List.map_map]
      refine List.map_congr_left (fun x _ => ?_)
      obtain ⟨cursor, body⟩ := x
      cases body <;> rfl
  unfold itemsOf loadConversation
  dsimp only
  generalize conversation.before.getD conversation.sessionId = pageKey
  induction conversation.turns with
  | nil => rfl
  | cons turn turns ih =>
    rw [List.map_cons, List.find?_cons, List.find?_cons, (hturn pageKey turn).1]
    cases turn.turnId == turnId with
    | true => exact (hturn pageKey turn).2
    | false => exact ih

/-! ## Runs -/

/-- The events a worker emits for one turn: one identity, rising sequences, and nothing after a
terminal event. -/
structure WorkerRun (sessionId turnId : JsString) (events : List PiCloudEvent) : Prop where
  session : ∀ e ∈ events, e.sessionId = sessionId
  turn : ∀ e ∈ events, e.turnId = some turnId
  rising : events.Pairwise (fun a b => a.seq < b.seq)
  positive : ∀ e ∈ events, 0 < e.seq
  last : events.Pairwise (fun a _ => a.body.isTerminal = false)

def projected (events : List PiCloudEvent) : Projection :=
  events.foldl (Projection.apply none) {}

def projectedItems (events : List PiCloudEvent) : Items := finishItems (projected events)

def SteadyRun (events : List PiCloudEvent) : Prop :=
  ∀ before event after, events = before ++ event :: after →
    steady (projectedItems before) event = true

/-- The conversation carries what the server projects of `before` as the transcript of the turn. -/
def Carries (conversation : ConversationDetail) (turnId : JsString)
    (before : List PiCloudEvent) : Prop :=
  (conversation.turns.find? (fun turn => turn.turnId == turnId)).bind ConversationTurn.transcript =
    (projectConversationTurnTranscript before none).toOption

/-- What snapshot and live delivery agree on for a sequence of events. -/
structure Agrees (sessionId turnId : JsString) (events : List PiCloudEvent) : Prop where
  /-- applying every event shows what the server projects of all of them -/
  live : ∀ state, Attends state sessionId → itemsOf state turnId = [] →
    ∀ t, projectConversationTurnTranscript events none = .ok t →
      browserView (itemsOf (events.foldl applyEvent state) turnId) = serverView t.items
  /-- and so does loading a prefix and applying the rest -/
  loaded : ∀ before after, events = before ++ after →
    ∀ conversation, conversation.sessionId = sessionId → Carries conversation turnId before →
    ∀ state, Attends state sessionId → itemsOf state turnId = [] →
      browserView (itemsOf (after.foldl applyEvent (loadConversation conversation)) turnId) =
        browserView (itemsOf (events.foldl applyEvent state) turnId)

section Runs

variable {sessionId turnId : JsString}

theorem WorkerRun.front {before after : List PiCloudEvent}
    (h : WorkerRun sessionId turnId (before ++ after)) : WorkerRun sessionId turnId before where
  session e he := h.session e (List.mem_append_left _ he)
  turn e he := h.turn e (List.mem_append_left _ he)
  rising := (List.pairwise_append.mp h.rising).1
  positive e he := h.positive e (List.mem_append_left _ he)
  last := (List.pairwise_append.mp h.last).1

theorem SteadyRun.front {before after : List PiCloudEvent} (h : SteadyRun (before ++ after)) :
    SteadyRun before := by
  rintro pre event post rfl
  exact h pre event (post ++ after) (by simp)

theorem WorkerRun.unended {before after : List PiCloudEvent} {event : PiCloudEvent}
    (h : WorkerRun sessionId turnId (before ++ event :: after)) :
    ∀ e ∈ before, e.body.isTerminal = false := by
  intro e he
  exact (List.pairwise_append.mp h.last).2.2 e he event (List.mem_cons_self ..)

/-- Nothing has ended the turn. -/
structure Open (p : Projection) : Prop where
  terminal : p.terminalSequence = none
  failure : p.failure = none
  cancellation : p.cancellation = none

theorem open_projected {events : List PiCloudEvent} (h : ∀ e ∈ events, e.body.isTerminal = false) :
    Open (projected events) := by
  have hfold : ∀ (es : List PiCloudEvent) (p : Projection), Open p →
      (∀ e ∈ es, e.body.isTerminal = false) → Open (es.foldl (Projection.apply none) p) := by
    intro es
    induction es with
    | nil => intro p hp _; exact hp
    | cons e es ih =>
      intro p hp hes
      refine ih _ ?_ (fun x hx => hes x (List.mem_cons_of_mem _ hx))
      have he := hes e (List.mem_cons_self ..)
      unfold Projection.apply Projection.note
      cases hbody : e.body with
      | turnCompleted stopReason => rw [hbody] at he; cases he
      | turnFailed failure => rw [hbody] at he; cases he
      | turnCancelled cancellation => rw [hbody] at he; cases he
      | _ => exact ⟨hp.terminal, hp.failure, hp.cancellation⟩
  exact hfold events {} ⟨rfl, rfl, rfl⟩ h

theorem projected_concat (before : List PiCloudEvent) (event : PiCloudEvent) :
    projected (before ++ [event]) = (projected before).apply none event := by
  simp [projected]

theorem projectedItems_open {events : List PiCloudEvent}
    (h : ∀ e ∈ events, e.body.isTerminal = false) :
    projectedItems events = (projected events).items := by
  unfold projectedItems finishItems
  rw [(open_projected h).terminal]

theorem projectedItems_concat {before : List PiCloudEvent} {event : PiCloudEvent}
    (h : ∀ e ∈ before, e.body.isTerminal = false) (he : event.body.isTerminal = false) :
    projectedItems (before ++ [event]) = projectItems none (projectedItems before) event := by
  have hall : ∀ e ∈ before ++ [event], e.body.isTerminal = false := by
    intro e hmem
    rcases List.mem_append.mp hmem with hmem | hmem
    · exact h e hmem
    · rw [List.mem_singleton.mp hmem]; exact he
  rw [projectedItems_open hall, projectedItems_open h, projected_concat]
  rfl

theorem filter_abandon (status : CompactionStatus) (seq : Nat) (at_ : JsString) (items : Items) :
    (items.map (ConversationTranscriptItem.mapBody (.abandon status seq at_))).filter
        (fun item => !item.body.isAnyPreparing) =
      (items.filter (fun item => !item.body.isAnyPreparing)).map
        (ConversationTranscriptItem.mapBody (.abandon status seq at_)) := by
  have h : ∀ x : ConversationTranscriptItem,
      (x.mapBody (.abandon status seq at_)).body.isAnyPreparing = x.body.isAnyPreparing := by
    intro x
    obtain ⟨cursor, body⟩ := x
    cases body with
    | tool i =>
      simp only [ConversationTranscriptItem.mapBody, ItemBody.abandon]
      split <;> rfl
    | compaction i =>
      simp only [ConversationTranscriptItem.mapBody, ItemBody.abandon]
      split <;> rfl
    | _ => rfl
  rw [List.filter_map]
  simp only [Function.comp_def, h]

theorem terminal_same {p : Projection} {event : PiCloudEvent} (hp : Open p)
    (he : event.body.isTerminal = true) :
    browserView (applyItems (p.items.map shown) event) =
      serverView (finishItems (p.apply none event)) := by
  have hfailure := hp.failure
  have hcancellation := hp.cancellation
  unfold applyItems finishItems Projection.apply Projection.note projectItems
  cases hbody : event.body with
  | turnCompleted stopReason =>
    simp only [hfailure, hcancellation, dropPreparations_shown]
    exact browserView_map_shown (fun _ => rfl) _
  | turnFailed failure =>
    simp only [dropPreparations_shown, filter_abandon, List.map_map, Option.isSome_some, true_or,
      if_true]
    rw [← List.map_map]
    exact browserView_map_shown (fun _ => rfl) _
  | turnCancelled cancellation =>
    simp only [dropPreparations_shown, filter_abandon, List.map_map, Option.isSome_some, or_true,
      if_true]
    rw [← List.map_map]
    exact browserView_map_shown (fun _ => rfl) _
  | _ => rw [hbody] at he; cases he

theorem applyItems_of_view {shownItems : ViewItems} {items : Items}
    (h : browserView shownItems = serverView items) (event : PiCloudEvent) :
    browserView (applyItems shownItems event) =
      browserView (applyItems (items.map shown) event) := by
  have hblur : ∀ xs : ViewItems, xs.map blurShown = (browserView xs).map (.ofBody []) := by
    intro xs
    rw [browserView, List.map_map]
    rfl
  have hsame : shownItems.map blurShown = (items.map shown).map blurShown := by
    rw [hblur, hblur, browserView_shown, h]
  rw [← applyItems_blurShown, hsame, applyItems_blurShown]

theorem unique_projected {events : List PiCloudEvent} (hs : SteadyRun events)
    (ho : ∀ e ∈ events, e.body.isTerminal = false) : Unique (projectedItems events) := by
  induction events using List.reverseRecOn with
  | nil => exact List.nodup_nil
  | append_singleton before event ih =>
    have hbefore : ∀ e ∈ before, e.body.isTerminal = false :=
      fun e he => ho e (List.mem_append_left _ he)
    rw [projectedItems_concat hbefore (ho event (by simp))]
    exact unique_step (ih hs.front hbefore) (hs before event [] rfl)

theorem run_same (before : List PiCloudEvent) {after : List PiCloudEvent} {state : SessionViewState}
    (hw : WorkerRun sessionId turnId (before ++ after)) (hs : SteadyRun (before ++ after))
    (ha : Attends state sessionId)
    (hv : browserView (itemsOf state turnId) = serverView (projectedItems before)) :
    browserView (itemsOf (after.foldl applyEvent state) turnId) =
      serverView (projectedItems (before ++ after)) := by
  induction after generalizing before state with
  | nil => simpa using hv
  | cons event after ih =>
    have hopen := hw.unended
    have hsession : event.sessionId = sessionId := hw.session event (by simp)
    have hturn : event.turnId = some turnId := hw.turn event (by simp)
    obtain ⟨hitems, hkept⟩ := itemsOf_applyEvent (hsession ▸ ha) hturn
    have hassoc : before ++ event :: after = (before ++ [event]) ++ after := by simp
    have hnext : browserView (itemsOf (applyEvent state event) turnId) =
        serverView (projectedItems (before ++ [event])) := by
      rw [hitems, applyItems_of_view hv]
      cases hterm : event.body.isTerminal with
      | true =>
        rw [projectedItems_open hopen, terminal_same (open_projected hopen) hterm,
          ← projected_concat]
        rfl
      | false =>
        rw [projectedItems_concat hopen hterm]
        exact (same_iff_steady (unique_projected hs.front hopen) hterm).mpr
          (hs before event after rfl)
    rw [hassoc] at hw hs ⊢
    exact ih _ hw hs (fun s h => ha s (hkept ▸ h)) hnext

theorem attends_fold {events : List PiCloudEvent} {state : SessionViewState}
    (hw : WorkerRun sessionId turnId events) (ha : Attends state sessionId) :
    Attends (events.foldl applyEvent state) sessionId := by
  induction events generalizing state with
  | nil => exact ha
  | cons event events ih =>
    have hsession : event.sessionId = sessionId := hw.session event (by simp)
    obtain ⟨_, hkept⟩ := itemsOf_applyEvent (hsession ▸ ha) (hw.turn event (by simp))
    have hrest : WorkerRun sessionId turnId events :=
      { session := fun e he => hw.session e (List.mem_cons_of_mem _ he)
        turn := fun e he => hw.turn e (List.mem_cons_of_mem _ he)
        rising := (List.pairwise_cons.mp hw.rising).2
        positive := fun e he => hw.positive e (List.mem_cons_of_mem _ he)
        last := (List.pairwise_cons.mp hw.last).2 }
    exact ih hrest (fun s h => ha s (hkept ▸ h))

theorem projected_transcript {events : List PiCloudEvent} {t : ConversationTurnTranscript}
    (hw : WorkerRun sessionId turnId events)
    (h : projectConversationTurnTranscript events none = .ok t) :
    t.items = projectedItems events := by
  cases events with
  | nil => cases h
  | cons first rest =>
    have hfirst : ∀ e ∈ first :: rest, (Projection.ofBase none).previousSequence < e.seq :=
      hw.positive
    rw [project_sorted hw.rising hfirst] at h
    split at h
    · cases h
    · split at h
      · unfold parseConversationTurnTranscriptResource at h
        split at h
        · cases h; rfl
        · cases h
      · cases h

theorem agrees_of_steady {events : List PiCloudEvent} (hw : WorkerRun sessionId turnId events)
    (hfit : ∀ before after, events = before ++ after → before ≠ [] →
      ∃ t, projectConversationTurnTranscript before none = .ok t)
    (hs : SteadyRun events) : Agrees sessionId turnId events := by
  have hlive : ∀ state, Attends state sessionId → itemsOf state turnId = [] →
      browserView (itemsOf (events.foldl applyEvent state) turnId) =
        serverView (projectedItems events) := by
    intro state ha hnil
    exact run_same [] hw hs ha (by rw [hnil]; rfl)
  refine ⟨fun state ha hnil t ht => ?_, ?_⟩
  · rw [hlive state ha hnil, projected_transcript hw ht]
  · rintro before after rfl conversation hconv hcarries state ha hnil
    rw [hlive state ha hnil]
    refine run_same before hw hs ?_ ?_
    · intro session h
      cases h
      exact hconv
    · rw [itemsOf_loaded, hcarries]
      cases before with
      | nil => rfl
      | cons first rest =>
        obtain ⟨t, ht⟩ := hfit _ after rfl (List.cons_ne_nil _ _)
        rw [ht, ← projected_transcript hw.front ht]
        rfl

theorem steady_of_agrees {events : List PiCloudEvent} (hw : WorkerRun sessionId turnId events)
    (hfit : ∀ before after, events = before ++ after → before ≠ [] →
      ∃ t, projectConversationTurnTranscript before none = .ok t)
    (hagree : ∀ before after, events = before ++ after → Agrees sessionId turnId before) :
    SteadyRun events := by
  intro before event after hsplit
  induction hn : before.length using Nat.strongRecOn generalizing before event after with
  | ind n ih =>
    subst hn
    have hbefore : SteadyRun before := by
      rintro pre e post rfl
      exact ih pre.length (by simp) pre e (post ++ event :: after) (by simp [hsplit]) rfl
    rw [hsplit] at hw
    have hopen := hw.unended
    cases hterm : event.body.isTerminal with
    | true => cases hbody : event.body <;> simp_all [steady, EventBody.isTerminal]
    | false =>
      have hfront := hw.front
      have hattends : Attends {} sessionId := by intro session h; cases h
      have hv : browserView (itemsOf (before.foldl applyEvent {}) turnId) =
          serverView (projectedItems before) :=
        run_same [] hfront hbefore hattends rfl
      have hassoc : before ++ event :: after = (before ++ [event]) ++ after := by simp
      obtain ⟨t, ht⟩ := hfit (before ++ [event]) after (by rw [hsplit, hassoc]) (by simp)
      have hshow := (hagree (before ++ [event]) after (by rw [hsplit, hassoc])).live {} hattends rfl
        t ht
      rw [List.foldl_append, List.foldl_cons, List.foldl_nil,
        projected_transcript (hassoc ▸ hw).front ht, projectedItems_concat hopen hterm] at hshow
      have hsession : event.sessionId = sessionId := hw.session event (by simp)
      have hturn : event.turnId = some turnId := hw.turn event (by simp)
      rw [(itemsOf_applyEvent (hsession ▸ attends_fold hfront hattends) hturn).1,
        applyItems_of_view hv] at hshow
      exact (same_iff_steady (unique_projected hbefore hopen) hterm).mp hshow

/-- Snapshot and live delivery agree on a run at every moment, at every split, exactly when all its
events are steady. -/
theorem snapshot_live_agree {events : List PiCloudEvent} (hw : WorkerRun sessionId turnId events)
    (hfit : ∀ before after, events = before ++ after → before ≠ [] →
      ∃ t, projectConversationTurnTranscript before none = .ok t) :
    (∀ before after, events = before ++ after → Agrees sessionId turnId before) ↔
      SteadyRun events := by
  refine ⟨steady_of_agrees hw hfit, ?_⟩
  rintro hs before after rfl
  refine agrees_of_steady hw.front (fun pre post hpre hne => ?_) hs.front
  exact hfit pre (post ++ after) (by rw [hpre, List.append_assoc]) hne

end Runs

/-- An event of one turn. -/
def turnEvent (seq : Nat) (body : EventBody) : PiCloudEvent where
  eventId := ascii "e"
  sessionId := ascii "s"
  agentId := ascii "root"
  turnId := some (ascii "t")
  seq := seq
  occurredAt := ascii "2026-10-18T00:00:00.000Z"
  body := body

theorem workerRun_pair {a b : EventBody} (ha : a.isTerminal = false) :
    WorkerRun (ascii "s") (ascii "t") [turnEvent 1 a, turnEvent 2 b] where
  session := by simp [turnEvent]
  turn := by simp [turnEvent]
  rising := by simp [turnEvent]
  positive := by simp [turnEvent]
  last := by simp [turnEvent, ha]

theorem splits_pair {α : Type} {x y : α} {before after : List α} (h : [x, y] = before ++ after)
    (hne : before ≠ []) : before = [x] ∨ before = [x, y] := by
  match before with
  | [] => exact absurd rfl hne
  | [a] => left; simp_all
  | a :: b :: rest => right; simp_all

/-- A command that is started and then completed. -/
theorem snapshot_live_agree_command :
    Agrees (ascii "s") (ascii "t")
      [turnEvent 1 (.toolStarted (ascii "c") (ascii "bash") .null {}),
        turnEvent 2 (.toolCompleted (ascii "c") .completed none {})] := by
  refine (snapshot_live_agree (workerRun_pair rfl) (fun before after h hne => ?_)).mpr ?_ _ []
    (List.append_nil _).symm
  · rcases splits_pair h hne with rfl | rfl
    · exact ⟨_, rfl⟩
    · exact ⟨_, rfl⟩
  · intro before event after h
    match before with
    | [] => cases h; rfl
    | [a] => cases h; rfl
    | a :: b :: rest => simp at h

def toolNames (items : List ItemBody) : List JsString :=
  items.filterMap (fun b => match b with
    | .tool i => some i.toolName
    | _ => none)

/-- A call that fails before it starts: the browser keeps the name of its preparation, the server
calls the tool "unknown". -/
theorem prepared_call_fails :
    ¬ ∀ events, WorkerRun (ascii "s") (ascii "t") events →
      (∀ before after, events = before ++ after → before ≠ [] →
        ∃ t, projectConversationTurnTranscript before none = .ok t) →
      Agrees (ascii "s") (ascii "t") events := by
  intro h
  have hagree := h _ (workerRun_pair (a := .toolCallPreparing (ascii "c") (ascii "bash"))
    (b := .toolCompleted (ascii "c") .failed none {}) rfl) (fun before after hsplit hne => by
      rcases splits_pair hsplit hne with rfl | rfl
      · exact ⟨_, rfl⟩
      · exact ⟨_, rfl⟩)
  have hview := hagree.live {} (by intro session hs; cases hs) rfl _ rfl
  exact absurd (congrArg toolNames hview) (by decide)

end Web
end PiCloud
