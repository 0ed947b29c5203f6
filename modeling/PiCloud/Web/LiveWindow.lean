import PiCloud.Web.HistoryWindow

/-!
# Web.LiveWindow

`retainLiveWindow` of `session-view.ts`: the live view is trimmed to a budget, from the newest item
back, and remembers where scrolling back starts.

* `itemHistoryQuery`: the place of an item in the stored history, if it has one.
* `walkItem`, `walkTurn`, `retainLiveWindow`: the trim, with what it decides for each item.
* `Walk.Sound`: the decisions against the turns that are left.
* `live_window_retained`: what the window and its anchor are.
* `live_window_gaps`: where they are not a suffix and its start.
-/

namespace PiCloud
namespace Web

open Lib Protocol PiCloud.Runtime

/-! ## Places in the history -/

structure ConversationHistoryQuery where
  /-- `at` -/
  cursor : Option JsString := none
  turnId : Option JsString := none
  entryId : Option JsString := none
  toolCallId : Option JsString := none
deriving DecidableEq

def isDigit (u : CodeUnit) : Bool := 0x30 ≤ u && u ≤ 0x39

/-- `[1-9][0-9]*`, as far as it goes, and what is left. -/
def number? : JsString → Option (JsString × JsString)
  | [] => none
  | u :: rest =>
    if isDigit u && u ≠ 0x30 then some (u :: rest.takeWhile isDigit, rest.dropWhile isDigit) else none

def after? (start : String) (s : JsString) : Option JsString :=
  if (ascii start).isPrefixOf s then some (s.drop start.length) else none

/-- The number after a word, where what follows it is as it has to be. -/
def numberAfter? (start : String) (follows : JsString → Bool) (s : JsString) : Option JsString := do
  let rest ← after? start s
  let (id, tail) ← number? rest
  if follows tail then some id else none

/-- `/^entry:([1-9][0-9]*)(?::|$)/` -/
def entryOfMessage (messageId : JsString) : Option JsString :=
  numberAfter? "entry:" (fun tail => tail = [] || tail.head? = some 0x3A) messageId

/-- `/^entry:([1-9][0-9]*)$/` -/
def entryOfCall (toolCallId : JsString) : Option JsString :=
  numberAfter? "entry:" (fun tail => tail = []) toolCallId

/-- `/^task:[1-9][0-9]*$/` -/
def isTask (toolCallId : JsString) : Bool :=
  (numberAfter? "task:" (fun tail => tail = []) toolCallId).isSome

def itemHistoryQuery (turnId : JsString) (item : TranscriptItem) : Option ConversationHistoryQuery :=
  match item.historyCursor.filter (fun cursor => cursor ≠ []) with
  | some cursor => some { cursor := some cursor }
  | none =>
    match item.body with
    | .text i => (i.messageId.bind entryOfMessage).map fun id => { turnId, entryId := some id }
    | .user i => (entryOfMessage i.input.messageId).map fun id => { turnId, entryId := some id }
    | .tool i =>
      match entryOfCall i.toolCallId with
      | some id => some { turnId, entryId := some id }
      | none => if isTask i.toolCallId then some { turnId, toolCallId := some i.toolCallId } else none
    | _ => none

namespace TranscriptItem

def isRunningTool (item : TranscriptItem) : Bool :=
  match item.body with
  | .tool i => i.status = .running
  | _ => false

/-- `presentationItemCharacters`; `stringify` is `JSON.stringify`. -/
def characters (stringify : TranscriptItem → JsString) (item : TranscriptItem) : Nat :=
  match item.body with
  | .text i => i.text.length + 256
  | .user i => i.input.text.length + 256
  | _ => (stringify item).length

end TranscriptItem

/-! ## The trim -/

def historyLiveItems : Nat := 256

def historyLiveCharacters : Nat := 2097152

/-- What was decided for an item, and how much of the budget was used when that was. -/
structure Decision where
  turnId : JsString
  item : TranscriptItem
  kept : Bool
  count : Nat
  characters : Nat

namespace Decision

def entry (d : Decision) : JsString × TranscriptItem := (d.turnId, d.item)

def query (d : Decision) : Option ConversationHistoryQuery := itemHistoryQuery d.turnId d.item

end Decision

structure Walk where
  turns : List PageTurn := []
  count : Nat := 0
  characters : Nat := 0
  removed : Bool := false
  lastRemoved : Option ConversationHistoryQuery := none
  /-- the decisions so far, the one on the oldest item first -/
  decisions : List Decision := []

/-- The walk inside a turn. -/
structure TurnWalk where
  walk : Walk
  items : List TranscriptItem := []
  clipped : Bool := false

structure LiveView where
  turns : List PageTurn
  hasBefore : Bool := false
  historyAnchor : Option ConversationHistoryQuery := none

section Trim

variable (stringify : TranscriptItem → JsString)

def fits (count characters : Nat) (item : TranscriptItem) : Prop :=
  count < historyLiveItems ∧ characters + item.characters stringify ≤ historyLiveCharacters

instance (count characters : Nat) (item : TranscriptItem) :
    Decidable (fits stringify count characters item) := inferInstanceAs (Decidable (_ ∧ _))

def keeps (count characters : Nat) (item : TranscriptItem) : Bool :=
  item.isRunningTool || count = 0 || fits stringify count characters item

def walkItem (turnId : JsString) (t : TurnWalk) (item : TranscriptItem) : TurnWalk :=
  let w := t.walk
  let decision := fun kept =>
    { turnId, item, kept, count := w.count, characters := w.characters : Decision }
  if keeps stringify w.count w.characters item then
    { t with
      items := item :: t.items
      walk := { w with
        count := w.count + 1
        characters := w.characters + item.characters stringify
        decisions := decision true :: w.decisions } }
  else
    { t with
      clipped := true
      walk := { w with
        removed := true
        lastRemoved := w.lastRemoved.or (itemHistoryQuery turnId item)
        decisions := decision false :: w.decisions } }

def PageTurn.clip (turn : PageTurn) (items : List TranscriptItem) : PageTurn :=
  { turn with view := { turn.view with prompt := none, items }, uploads := none, continuesBefore := true }

def headerOf (turn : PageTurn) : Nat := (turn.view.prompt.map List.length).getD 0

namespace TurnWalk

variable (t : TurnWalk) (turn : PageTurn)

def includesHeader : Bool :=
  !t.clipped && t.walk.characters + headerOf turn ≤ historyLiveCharacters

/-- The walk after the header of the turn. -/
def headed : Walk :=
  { t.walk with
    removed := t.walk.removed || (!t.includesHeader turn && headerOf turn ≠ 0)
    characters :=
      if t.includesHeader turn then t.walk.characters + headerOf turn else t.walk.characters }

def retained : PageTurn := if t.clipped || !t.includesHeader turn then turn.clip t.items else turn

end TurnWalk

def walkTurn (newest : Bool) (w : Walk) (turn : PageTurn) : Walk :=
  let t := turn.view.items.reverse.foldl (walkItem stringify turn.view.turnId) { walk := w }
  if t.items = [] ∧ newest = false ∧ historyLiveItems ≤ t.walk.count then
    { t.walk with removed := true }
  else
    let w := t.headed turn
    if t.items = [] ∧ newest = false ∧ historyLiveCharacters ≤ w.characters then
      { w with removed := true }
    else { w with
      turns := t.retained turn :: w.turns
      count := w.count + 1
      characters := w.characters + 256 }

def walkTurns (turns : List PageTurn) : Walk :=
  turns.reverse.zipIdx.foldl (fun w e => walkTurn stringify (e.2 = 0) w e.1) {}

def retainLiveWindow (state : LiveView) : LiveView :=
  let w := walkTurns stringify state.turns
  if !w.removed then state
  else
    let oldest := w.turns.head?
    let firstQuery := oldest.bind fun turn =>
      turn.view.items.findSome? (itemHistoryQuery turn.view.turnId)
    { turns := w.turns
      hasBefore := true
      historyAnchor := ((firstQuery.or w.lastRemoved).or state.historyAnchor).or
        (oldest.map fun turn => { turnId := some turn.view.turnId }) }

end Trim

/-! ## The budget -/

section Decisions

variable {stringify : TranscriptItem → JsString}

/-- The decisions against what is used, newest last. -/
structure Walk.Budget (stringify : TranscriptItem → JsString) (w : Walk) : Prop where
  ordered : w.decisions.Pairwise fun e d => d.count ≤ e.count ∧ d.characters ≤ e.characters
  used : ∀ d ∈ w.decisions, d.count ≤ w.count ∧ d.characters ≤ w.characters
  decided : ∀ d ∈ w.decisions, d.kept = keeps stringify d.count d.characters d.item
  lastRemoved : w.lastRemoved = (w.decisions.reverse.filter fun d => !d.kept).findSome? Decision.query
  removed : ∀ d ∈ w.decisions, d.kept = false → w.removed = true

theorem budget_start : Walk.Budget stringify {} where
  ordered := .nil
  used _ h := by cases h
  decided _ h := by cases h
  lastRemoved := rfl
  removed _ h := by cases h

theorem Walk.Budget.more {w w' : Walk} (h : w.Budget stringify) (hdecisions : w'.decisions = w.decisions)
    (hlast : w'.lastRemoved = w.lastRemoved) (hcount : w.count ≤ w'.count)
    (hcharacters : w.characters ≤ w'.characters) (hremoved : w.removed = true → w'.removed = true) :
    w'.Budget stringify where
  ordered := hdecisions ▸ h.ordered
  used d hd := by
    obtain ⟨hc, hn⟩ := h.used d (hdecisions ▸ hd)
    exact ⟨Nat.le_trans hc hcount, Nat.le_trans hn hcharacters⟩
  decided d hd := h.decided d (hdecisions ▸ hd)
  lastRemoved := by rw [hlast, hdecisions, h.lastRemoved]
  removed d hd hkept := hremoved (h.removed d (hdecisions ▸ hd) hkept)

theorem Walk.Budget.decide {w w' : Walk} (h : w.Budget stringify) {d : Decision}
    (hdecisions : w'.decisions = d :: w.decisions) (hcount : d.count = w.count)
    (hcharacters : d.characters = w.characters)
    (hkept : d.kept = keeps stringify d.count d.characters d.item)
    (hlast : w'.lastRemoved = if d.kept then w.lastRemoved else w.lastRemoved.or d.query)
    (hcount' : w.count ≤ w'.count) (hcharacters' : w.characters ≤ w'.characters)
    (hremoved : w'.removed = (w.removed || !d.kept)) : w'.Budget stringify where
  ordered := by
    rw [hdecisions, List.pairwise_cons, hcount, hcharacters]
    exact ⟨h.used, h.ordered⟩
  used e he := by
    rw [hdecisions] at he
    obtain rfl | he := List.mem_cons.mp he
    · rw [hcount, hcharacters]
      exact ⟨hcount', hcharacters'⟩
    · obtain ⟨hc, hn⟩ := h.used e he
      exact ⟨Nat.le_trans hc hcount', Nat.le_trans hn hcharacters'⟩
  decided e he := by
    rw [hdecisions] at he
    obtain rfl | he := List.mem_cons.mp he
    · exact hkept
    · exact h.decided e he
  lastRemoved := by
    rw [hlast, hdecisions, List.reverse_cons, List.filter_append, List.findSome?_append,
      ← h.lastRemoved, List.filter_singleton]
    cases d.kept with
    | true => exact (Option.or_none).symm
    | false =>
      rw [Bool.not_false]
      cases hquery : d.query with
      | none => simp [hquery]
      | some q => simp [hquery]
  removed e he hfalse := by
    rw [hdecisions] at he
    rw [hremoved]
    obtain rfl | he := List.mem_cons.mp he
    · rw [hfalse]
      exact Bool.or_true _
    · rw [h.removed e he hfalse]
      rfl

theorem Walk.Budget.walkItem {t : TurnWalk} (h : t.walk.Budget stringify) (turnId : JsString)
    (item : TranscriptItem) : (walkItem stringify turnId t item).walk.Budget stringify := by
  unfold PiCloud.Web.walkItem
  dsimp only
  split
  · rename_i hkeeps
    exact h.decide rfl rfl rfl hkeeps.symm rfl (Nat.le_succ _) (Nat.le_add_right ..)
      (Bool.or_false _).symm
  · rename_i hkeeps
    exact h.decide rfl rfl rfl (eq_false_of_ne_true hkeeps).symm rfl (Nat.le_refl _) (Nat.le_refl _)
      (Bool.or_true _).symm

/-- What the walk through the items of a turn does. -/
structure TurnWalk.Walked (t t' : TurnWalk) (ds : List Decision) : Prop where
  decisions : t'.walk.decisions = ds ++ t.walk.decisions
  turns : t'.walk.turns = t.walk.turns
  items : t'.items = (ds.filter Decision.kept).map Decision.item ++ t.items
  clipped : t'.clipped = false → t.clipped = false ∧ ∀ d ∈ ds, d.kept = true

theorem walked_items (turnId : JsString) (items : List TranscriptItem) (t : TurnWalk)
    (h : t.walk.Budget stringify) :
    (items.foldl (walkItem stringify turnId) t).walk.Budget stringify ∧
      ∃ ds, t.Walked (items.foldl (walkItem stringify turnId) t) ds ∧
        ds.map Decision.entry = items.reverse.map fun item => (turnId, item) := by
  induction items generalizing t with
  | nil => exact ⟨h, [], ⟨rfl, rfl, rfl, fun hc => ⟨hc, fun d hd => absurd hd List.not_mem_nil⟩⟩, rfl⟩
  | cons item items ih =>
    obtain ⟨hbudget, ds, hwalked, hentries⟩ := ih _ (h.walkItem turnId item)
    have hone : ∃ d : Decision, t.Walked (walkItem stringify turnId t item) [d] ∧
        d.entry = (turnId, item) := by
      unfold walkItem
      dsimp only
      split
      · exact ⟨_, ⟨rfl, rfl, rfl, fun hc => ⟨hc, fun d hd => by cases List.mem_singleton.mp hd; rfl⟩⟩,
          rfl⟩
      · exact ⟨_, ⟨rfl, rfl, rfl, fun hc => Bool.noConfusion hc⟩, rfl⟩
    obtain ⟨d, hd, hentry⟩ := hone
    refine ⟨hbudget, ds ++ [d], ⟨?_, ?_, ?_, ?_⟩, ?_⟩
    · rw [List.foldl_cons, hwalked.decisions, hd.decisions, List.append_assoc]
    · exact hwalked.turns.trans hd.turns
    · rw [List.foldl_cons, hwalked.items, hd.items, List.filter_append, List.map_append,
        List.append_assoc]
    · intro hc
      obtain ⟨hclipped, hds⟩ := hwalked.clipped hc
      obtain ⟨hclipped', hd'⟩ := hd.clipped hclipped
      refine ⟨hclipped', fun e he => ?_⟩
      exact (List.mem_append.mp he).elim (hds e) (hd' e)
    · rw [List.map_append, hentries, List.reverse_cons, List.map_append, List.map_singleton, hentry]
      rfl

/-! ## The turns -/

def entries (turns : List PageTurn) : List (JsString × TranscriptItem) :=
  turns.flatMap fun turn => turn.view.items.map fun item => (turn.view.turnId, item)

/-- The walk has come through turns, the newest first. -/
structure Walk.Sound (stringify : TranscriptItem → JsString) (w : Walk) (turns : List PageTurn) :
    Prop where
  budget : w.Budget stringify
  all : w.decisions.map Decision.entry = entries turns.reverse
  left : entries w.turns = (w.decisions.filter Decision.kept).map Decision.entry

theorem entries_cons (turn : PageTurn) (turns : List PageTurn) :
    entries (turn :: turns) =
      (turn.view.items.map fun item => (turn.view.turnId, item)) ++ entries turns := rfl

theorem Walk.Sound.walkTurn {w : Walk} {turns : List PageTurn} (h : w.Sound stringify turns)
    (newest : Bool) (turn : PageTurn) :
    (walkTurn stringify newest w turn).Sound stringify (turns ++ [turn]) := by
  obtain ⟨hbudget, ds, hwalked, hentries⟩ :=
    walked_items turn.view.turnId turn.view.items.reverse { walk := w } h.budget
  set t := turn.view.items.reverse.foldl (walkItem stringify turn.view.turnId) { walk := w } with ht
  rw [List.reverse_reverse] at hentries
  have hitems : t.items = (ds.filter Decision.kept).map Decision.item := by
    rw [hwalked.items]
    exact List.append_nil _
  have hall : t.walk.decisions.map Decision.entry = entries (turns ++ [turn]).reverse := by
    rw [hwalked.decisions, List.map_append, hentries, h.all, List.reverse_append]
    exact (entries_cons turn _).symm
  have hturn : ∀ d ∈ ds, d.turnId = turn.view.turnId := by
    intro d hd
    have hin : d.entry ∈ ds.map Decision.entry := List.mem_map_of_mem hd
    rw [hentries] at hin
    obtain ⟨item, -, hitem⟩ := List.mem_map.mp hin
    exact (congrArg Prod.fst hitem).symm
  have hkept : (t.walk.decisions.filter Decision.kept).map Decision.entry =
      (t.items.map fun item => (turn.view.turnId, item)) ++ entries w.turns := by
    rw [hwalked.decisions, List.filter_append, List.map_append, ← h.left, hitems, List.map_map]
    congr 1
    exact List.map_congr_left fun d hd =>
      congrArg (fun id => (id, d.item)) (hturn d (List.mem_of_mem_filter hd))
  have hheader : t.walk.characters ≤ (t.headed turn).characters := by
    unfold TurnWalk.headed
    dsimp only
    split
    · exact Nat.le_add_right ..
    · exact Nat.le_refl _
  have hremoved : t.walk.removed = true → (t.headed turn).removed = true := by
    intro hr
    unfold TurnWalk.headed
    dsimp only
    rw [hr]
    rfl
  unfold PiCloud.Web.walkTurn
  dsimp only
  rw [← ht]
  split
  · rename_i hskip
    refine ⟨hbudget.more rfl rfl (Nat.le_refl _) (Nat.le_refl _) fun _ => rfl, hall, ?_⟩
    dsimp only
    rw [hkept, hskip.1, hwalked.turns]
    rfl
  · split
    · rename_i hskip
      refine ⟨hbudget.more rfl rfl (Nat.le_refl _) hheader fun _ => rfl, hall, ?_⟩
      change entries t.walk.turns = (t.walk.decisions.filter Decision.kept).map Decision.entry
      rw [hkept, hskip.1, hwalked.turns]
      rfl
    · refine ⟨hbudget.more rfl rfl (Nat.le_succ _) (Nat.le_trans hheader (Nat.le_add_right ..))
        hremoved, hall, ?_⟩
      change entries (t.retained turn :: t.walk.turns) =
        (t.walk.decisions.filter Decision.kept).map Decision.entry
      rw [hkept, hwalked.turns, entries_cons]
      congr 1
      unfold TurnWalk.retained
      split
      · rfl
      · rename_i hwhole
        have hunclipped : t.clipped = false := by
          refine eq_false_of_ne_true fun hc => hwhole ?_
          rw [hc]
          rfl
        have hds : ds.filter Decision.kept = ds := List.filter_eq_self.mpr (hwalked.clipped hunclipped).2
        rw [hitems, hds, ← hentries, List.map_map]
        exact List.map_congr_left fun d hd => congrArg (fun id => (id, d.item)) (hturn d hd)

theorem walkTurns_sound (stringify : TranscriptItem → JsString) (turns : List PageTurn) :
    (walkTurns stringify turns).Sound stringify turns.reverse := by
  have hfold : ∀ (es : List (PageTurn × Nat)) (w : Walk) (seen : List PageTurn),
      w.Sound stringify seen →
      (es.foldl (fun w e => PiCloud.Web.walkTurn stringify (e.2 = 0) w e.1) w).Sound stringify
        (seen ++ es.map Prod.fst) := by
    intro es
    induction es with
    | nil =>
      intro w seen h
      rwa [List.map_nil, List.append_nil]
    | cons e es ih =>
      intro w seen h
      have hnext := ih _ _ (h.walkTurn (decide (e.2 = 0)) e.1)
      rwa [List.append_assoc] at hnext
  have hstart : Walk.Sound stringify {} [] := ⟨budget_start, rfl, rfl⟩
  have h := hfold turns.reverse.zipIdx {} [] hstart
  rwa [List.nil_append, List.zipIdx_map_fst] at h

/-! ## Gaps -/

def Exhausted (stringify : TranscriptItem → JsString) (ds : List Decision) : Prop :=
  ∀ older (d : Decision) newer, ds = older ++ d :: newer → d.kept = false → (∀ e ∈ newer, e.kept = true) →
    ∀ e ∈ older, e.item.isRunningTool = false → ¬ fits stringify d.count d.characters e.item

theorem newest_removed {ds : List Decision} {d : Decision} (hd : d ∈ ds) (hkept : d.kept = false) :
    ∃ older, ∃ e : Decision, ∃ newer, ds = older ++ e :: newer ∧ e.kept = false ∧ ∀ n ∈ newer, n.kept = true := by
  induction ds generalizing d with
  | nil => cases hd
  | cons c ds ih =>
    by_cases hrest : ∃ e ∈ ds, e.kept = false
    · obtain ⟨e, he, hek⟩ := hrest
      obtain ⟨older, f, newer, rfl, hf, hnewer⟩ := ih he hek
      exact ⟨c :: older, f, newer, rfl, hf, hnewer⟩
    · have hall : ∀ e ∈ ds, e.kept = true := fun e he =>
        eq_true_of_ne_false fun hek => hrest ⟨e, he, hek⟩
      obtain rfl | hd := List.mem_cons.mp hd
      · exact ⟨[], d, ds, rfl, hkept, hall⟩
      · exact absurd hkept (by rw [hall d hd]; nofun)

theorem not_keeps {count characters : Nat} {item : TranscriptItem}
    (h : keeps stringify count characters item = false) :
    item.isRunningTool = false ∧ count ≠ 0 ∧ ¬ fits stringify count characters item := by
  unfold keeps at h
  simp only [Bool.or_eq_false_iff, decide_eq_false_iff_not] at h
  exact ⟨h.1.1, h.1.2, h.2⟩

theorem Walk.Budget.no_gap {w : Walk} (h : w.Budget stringify) (hexhausted : Exhausted stringify w.decisions)
    {older newer : List Decision} {d e : Decision} (hds : w.decisions = older ++ d :: newer)
    (hd : d.kept = false) (he : e ∈ older) (hrunning : e.item.isRunningTool = false) :
    e.kept = false := by
  obtain ⟨between, f, last, hsplit, hf, hlast⟩ := newest_removed (List.mem_cons_self (a := d)) hd
  have hds' : w.decisions = (older ++ between) ++ f :: last := by
    rw [hds, List.append_assoc, ← hsplit]
  have hfits := hexhausted _ f last hds' hf hlast e (List.mem_append_left _ he) hrunning
  have hordered := h.ordered
  rw [hds', List.pairwise_append] at hordered
  obtain ⟨hcount, hcharacters⟩ :=
    hordered.2.2 e (List.mem_append_left _ he) f (List.mem_cons_self ..)
  have hin : ∀ {x}, x ∈ older ++ between ∨ x = f → x ∈ w.decisions := by
    intro x hx
    rw [hds']
    exact hx.elim (List.mem_append_left _) fun hx => hx ▸ List.mem_append_right _ (List.mem_cons_self ..)
  rw [h.decided f (hin (.inr rfl))] at hf
  obtain ⟨-, hpositive, -⟩ := not_keeps hf
  rw [h.decided e (hin (.inl (List.mem_append_left _ he)))]
  unfold keeps
  simp only [Bool.or_eq_false_iff, decide_eq_false_iff_not]
  refine ⟨⟨hrunning, fun hzero => hpositive (by omega)⟩, fun hfit => hfits ?_⟩
  exact ⟨Nat.lt_of_le_of_lt hcount hfit.1, Nat.le_trans (Nat.add_le_add_right hcharacters _) hfit.2⟩

theorem Walk.Budget.running_kept {w : Walk} (h : w.Budget stringify) {d : Decision}
    (hd : d ∈ w.decisions) (hrunning : d.item.isRunningTool = true) : d.kept = true := by
  rw [h.decided d hd]
  unfold keeps
  rw [hrunning]
  rfl

def settled (e : JsString × TranscriptItem) : Bool := !e.2.isRunningTool

theorem filter_settled (ds : List Decision) :
    (ds.map Decision.entry).filter settled =
      (ds.filter fun d => !d.item.isRunningTool).map Decision.entry := List.filter_map

theorem Walk.Budget.suffix {w : Walk} (h : w.Budget stringify)
    (hexhausted : Exhausted stringify w.decisions) :
    ((w.decisions.filter Decision.kept).map Decision.entry).filter settled <:+
      (w.decisions.map Decision.entry).filter settled := by
  rw [filter_settled, filter_settled]
  by_cases hremoved : ∃ d ∈ w.decisions, d.kept = false
  · obtain ⟨d, hd, hkept⟩ := hremoved
    obtain ⟨older, e, newer, hds, he, hnewer⟩ := newest_removed hd hkept
    have holder : (older.filter Decision.kept).filter (fun d => !d.item.isRunningTool) = [] := by
      rw [List.filter_filter, List.filter_eq_nil_iff]
      intro f hf hboth
      rw [Bool.and_eq_true, Bool.not_eq_true'] at hboth
      rw [h.no_gap hexhausted hds he hf hboth.1] at hboth
      exact absurd hboth.2 Bool.false_ne_true
    rw [hds, List.filter_append, List.filter_cons_of_neg (by rw [he]; nofun),
      List.filter_eq_self.mpr hnewer, List.filter_append, holder, List.nil_append, List.filter_append]
    refine (List.suffix_append_of_suffix ?_).map _
    exact (List.suffix_cons ..).filter _
  · have hall : ∀ d ∈ w.decisions, d.kept = true := fun d hd =>
      eq_true_of_ne_false fun hk => hremoved ⟨d, hd, hk⟩
    exact (List.filter_eq_self.mpr hall).symm ▸ List.suffix_refl _

theorem Walk.Budget.anchor {w : Walk} (h : w.Budget stringify)
    (hexhausted : Exhausted stringify w.decisions) {before after : List (JsString × TranscriptItem)}
    {e : JsString × TranscriptItem}
    (hleft : (w.decisions.filter Decision.kept).map Decision.entry = before ++ e :: after)
    (hsettled : settled e = true) :
    ∃ older, w.decisions.map Decision.entry = older ++ e :: after ∧ before.Sublist older := by
  obtain ⟨l, r, hlr, rfl, hr⟩ := List.map_eq_append_iff.mp hleft
  obtain ⟨d, newer, rfl, rfl, rfl⟩ := List.map_eq_cons_iff.mp hr
  obtain ⟨older, rest, hds, rfl, hrest⟩ := List.filter_eq_append_iff.mp hlr
  obtain ⟨skipped, behind, rfl, hskipped, hd, rfl⟩ := List.filter_eq_cons_iff.mp hrest
  have hbehind : behind.filter Decision.kept = behind := by
    rw [List.filter_eq_self]
    intro n hn
    refine eq_true_of_ne_false fun hfalse => ?_
    obtain ⟨a, b, rfl⟩ := List.append_of_mem hn
    have hsplit : w.decisions = (older ++ skipped ++ d :: a) ++ n :: b := by
      rw [hds, List.append_assoc, List.append_assoc]
      rfl
    have hkept := h.no_gap hexhausted hsplit hfalse
      (List.mem_append_right _ (List.mem_cons_self ..)) (by simpa [settled, Decision.entry] using hsettled)
    rw [hkept] at hd
    exact Bool.false_ne_true hd
  refine ⟨(older ++ skipped).map Decision.entry, ?_, ?_⟩
  · rw [hds, hbehind, ← List.append_assoc, List.map_append, List.map_cons]
  · exact (List.filter_sublist.trans (List.sublist_append_left ..)).map _

/-! ## The window and its anchor -/

theorem findSome_of_find {turnId : JsString} {items : List TranscriptItem} {item : TranscriptItem}
    (h : items.find? (fun item => (itemHistoryQuery turnId item).isSome) = some item) :
    items.findSome? (itemHistoryQuery turnId) = itemHistoryQuery turnId item ∧
      (itemHistoryQuery turnId item).isSome = true ∧
      ∃ before after, items = before ++ item :: after := by
  obtain ⟨hplaced, before, after, rfl, hbefore⟩ := List.find?_eq_some_iff_append.mp h
  refine ⟨?_, hplaced, before, after, rfl⟩
  have hnone : before.findSome? (itemHistoryQuery turnId) = none := by
    rw [List.findSome?_eq_none_iff]
    intro x hx
    have := hbefore x hx
    rwa [Bool.not_eq_true', ← Bool.not_eq_true, Option.not_isSome_iff_eq_none] at this
  rw [List.findSome?_append, hnone, Option.none_or]
  obtain ⟨q, hq⟩ := Option.isSome_iff_exists.mp hplaced
  rw [List.findSome?_cons, hq]

theorem Walk.Budget.newest_placed {w : Walk} (h : w.Budget stringify) {d : Decision}
    (hd : d ∈ w.decisions) (hkept : d.kept = false) (hplaced : d.query.isSome = true) :
    ∃ older, ∃ e : Decision, ∃ newer, w.decisions = older ++ e :: newer ∧ e.kept = false ∧ e.query.isSome = true ∧
      w.lastRemoved = e.query ∧ ∀ n ∈ newer, n.kept = false → n.query = none := by
  have hsome : (w.decisions.reverse.filter fun d => !d.kept).findSome? Decision.query ≠ none := by
    rw [ne_eq, List.findSome?_eq_none_iff]
    intro hnone
    have := hnone d (List.mem_filter.mpr ⟨List.mem_reverse.mpr hd, by rw [hkept]; rfl⟩)
    rw [this] at hplaced
    cases hplaced
  obtain ⟨q, hq⟩ := Option.ne_none_iff_exists'.mp hsome
  obtain ⟨l, e, r, hlist, he, hl⟩ := List.findSome?_eq_some_iff.mp hq
  obtain ⟨newer, rest, hreverse, rfl, hrest⟩ := List.filter_eq_append_iff.mp hlist
  obtain ⟨skipped, older, rfl, hskipped, hek, -⟩ := List.filter_eq_cons_iff.mp hrest
  refine ⟨older.reverse, e, (newer ++ skipped).reverse, ?_, ?_, ?_, ?_, ?_⟩
  · rw [← List.reverse_reverse w.decisions, hreverse, List.reverse_append, List.reverse_append,
      List.reverse_append, List.reverse_cons, List.append_assoc, List.append_assoc]
    rfl
  · rwa [Bool.not_eq_true'] at hek
  · rw [he]
    rfl
  · rw [h.lastRemoved, hq, he]
  · intro n hn hfalse
    obtain hn | hn := List.mem_append.mp (List.mem_reverse.mp hn)
    · exact hl n (List.mem_filter.mpr ⟨hn, by rw [hfalse]; rfl⟩)
    · exact absurd (by rw [hfalse]; rfl) (hskipped n hn)

end Decisions

/-- The items that are decided on are those of the view, and those that are kept are what the window
shows. Every running tool is kept. Where nothing older than the newest removed item would fit what was
left of the budget for that one, what the window shows beside running tools is a suffix of all there
was; and an item that the anchor is taken from, if it is no running tool, has everything removed
before it. Where no item of the oldest turn shown has a place in the history, the anchor is the
newest removed item that has one. -/
theorem live_window_retained (stringify : TranscriptItem → JsString) (state : LiveView) :
    let ds := (walkTurns stringify state.turns).decisions
    let window := retainLiveWindow stringify state
    (ds.map Decision.entry = entries state.turns ∧
      entries window.turns = (ds.filter Decision.kept).map Decision.entry) ∧
    (∀ d ∈ ds, d.item.isRunningTool = true → d.kept = true) ∧
    (Exhausted stringify ds →
      (entries window.turns).filter settled <:+ (entries state.turns).filter settled ∧
      ∀ oldest item, window.turns.head? = some oldest → (∃ d ∈ ds, d.kept = false) →
        oldest.view.items.find? (fun item => (itemHistoryQuery oldest.view.turnId item).isSome) =
          some item → item.isRunningTool = false →
        window.historyAnchor = itemHistoryQuery oldest.view.turnId item ∧
        ∃ before older after, before.Sublist older ∧
          entries window.turns = before ++ (oldest.view.turnId, item) :: after ∧
          entries state.turns = older ++ (oldest.view.turnId, item) :: after) ∧
    ∀ oldest d, window.turns.head? = some oldest →
      oldest.view.items.findSome? (itemHistoryQuery oldest.view.turnId) = none → d ∈ ds →
      d.kept = false → d.query.isSome = true →
      ∃ older, ∃ e : Decision, ∃ newer, ds = older ++ e :: newer ∧ e.kept = false ∧ window.historyAnchor = e.query ∧
        ∀ n ∈ newer, n.kept = false → n.query = none := by
  intro ds window
  have hsound := walkTurns_sound stringify state.turns
  have hall : ds.map Decision.entry = entries state.turns := by
    rw [← List.reverse_reverse state.turns]
    exact hsound.all
  have hwindow : ((walkTurns stringify state.turns).removed = true ∧
      window.turns = (walkTurns stringify state.turns).turns) ∨
      ((∀ d ∈ ds, d.kept = true) ∧ window = state) := by
    cases hremoved : (walkTurns stringify state.turns).removed with
    | true =>
      refine .inl ⟨rfl, ?_⟩
      simp only [window, retainLiveWindow, hremoved]
      rfl
    | false =>
      refine .inr ⟨fun d hd => eq_true_of_ne_false fun hk => ?_, ?_⟩
      · rw [hsound.budget.removed d hd hk] at hremoved
        cases hremoved
      · simp only [window, retainLiveWindow, hremoved]
        rfl
  have hleft : entries window.turns = (ds.filter Decision.kept).map Decision.entry := by
    obtain ⟨-, hturns⟩ | ⟨hkept, hstate⟩ := hwindow
    · rw [hturns]
      exact hsound.left
    · rw [hstate, List.filter_eq_self.mpr hkept, hall]
  have hanchor : ∀ oldest, window.turns.head? = some oldest → (∃ d ∈ ds, d.kept = false) →
      window.historyAnchor =
        (((oldest.view.items.findSome? (itemHistoryQuery oldest.view.turnId)).or
          (walkTurns stringify state.turns).lastRemoved).or state.historyAnchor).or
            (some { turnId := some oldest.view.turnId }) := by
    rintro oldest holdest ⟨d, hd, hk⟩
    have hremoved := hsound.budget.removed d hd hk
    have hturns : window.turns = (walkTurns stringify state.turns).turns := by
      simp only [window, retainLiveWindow, hremoved]
      rfl
    rw [hturns] at holdest
    simp only [window, retainLiveWindow, hremoved]
    rw [holdest]
    rfl
  refine ⟨⟨hall, hleft⟩, fun d hd => hsound.budget.running_kept hd, fun hexhausted => ⟨?_, ?_⟩, ?_⟩
  · rw [hleft, ← hall]
    exact hsound.budget.suffix hexhausted
  · intro oldest item holdest hremoved hfind hrunning
    obtain ⟨hfirst, hplaced, before, after, hitems⟩ := findSome_of_find hfind
    obtain ⟨q, hq⟩ := Option.isSome_iff_exists.mp hplaced
    refine ⟨?_, ?_⟩
    · rw [hanchor oldest holdest hremoved, hfirst, hq]
      rfl
    · obtain ⟨rest, hrest⟩ := List.head?_eq_some_iff.mp holdest
      have hentries : entries window.turns =
          (before.map fun item => (oldest.view.turnId, item)) ++ (oldest.view.turnId, item) ::
            ((after.map fun item => (oldest.view.turnId, item)) ++ entries rest) := by
        rw [hrest, entries_cons, hitems, List.map_append, List.map_cons, List.append_assoc]
        rfl
      obtain ⟨older, hsplit, hsub⟩ := hsound.budget.anchor hexhausted (hleft.symm.trans hentries)
        (by unfold settled; rw [hrunning]; rfl)
      exact ⟨_, older, _, hsub, hentries, hall.symm.trans hsplit⟩
  · intro oldest d holdest hnone hd hk hplaced
    obtain ⟨older, e, newer, hds, he, heq, hlast, hnewer⟩ := hsound.budget.newest_placed hd hk hplaced
    refine ⟨older, e, newer, hds, he, ?_, hnewer⟩
    obtain ⟨q, hq⟩ := Option.isSome_iff_exists.mp heq
    rw [hanchor oldest holdest ⟨d, hd, hk⟩, hnone, hlast, hq]
    rfl

/-! ## Where there are gaps -/

def viewOf (items : List TranscriptItem) : LiveView where
  turns := [{ view := { turnId := ascii "t", status := .running, items } }]

theorem middle_removed {stringify : TranscriptItem → JsString} {a b c : TranscriptItem}
    (ha : a.isRunningTool = true ∨
      c.characters stringify + a.characters stringify ≤ historyLiveCharacters)
    (hb : b.isRunningTool = false) (hlarge : historyLiveCharacters < b.characters stringify) :
    entries (retainLiveWindow stringify (viewOf [a, b, c])).turns = [(ascii "t", a), (ascii "t", c)] ∧
      ∀ q, itemHistoryQuery (ascii "t") a = some q →
        (retainLiveWindow stringify (viewOf [a, b, c])).historyAnchor = some q := by
  have hkeepsc : keeps stringify 0 0 c = true := by
    unfold keeps
    rw [decide_eq_true rfl, Bool.or_true, Bool.true_or]
  have hkeepsb : keeps stringify 1 (c.characters stringify) b = false := by
    unfold keeps
    simp only [Bool.or_eq_false_iff, decide_eq_false_iff_not]
    refine ⟨⟨hb, Nat.one_ne_zero⟩, fun hfit => ?_⟩
    exact Nat.not_le_of_lt hlarge (Nat.le_trans (Nat.le_add_left ..) hfit.2)
  have hkeepsa : keeps stringify 1 (c.characters stringify) a = true := by
    unfold keeps
    simp only [Bool.or_eq_true, decide_eq_true_eq]
    exact ha.imp .inl fun hfit => ⟨by decide, hfit⟩
  have hwalk : ∃ t, [c, b, a].foldl (walkItem stringify (ascii "t")) { walk := {} } = t ∧
      t.items = [a, c] ∧ t.clipped = true ∧ t.walk.turns = [] ∧ t.walk.removed = true := by
    refine ⟨_, rfl, ?_⟩
    simp only [List.foldl_cons, List.foldl_nil, walkItem, hkeepsc, hkeepsb, hkeepsa, if_true,
      Nat.zero_add, Bool.false_eq_true, if_false]
    exact ⟨trivial, trivial, trivial, trivial⟩
  obtain ⟨t, ht, hitems, hclipped, hturns, hremoved⟩ := hwalk
  set turn : PageTurn := { view := { turnId := ascii "t", status := .running, items := [a, b, c] } }
    with hturn
  have hwalked : walkTurns stringify [turn] = { t.headed turn with
      turns := t.retained turn :: (t.headed turn).turns
      count := (t.headed turn).count + 1
      characters := (t.headed turn).characters + 256 } := by
    change walkTurn stringify true {} turn = _
    unfold walkTurn
    have hfold : turn.view.items.reverse.foldl (walkItem stringify turn.view.turnId) { walk := {} } = t := ht
    rw [hfold]
    dsimp only
    rw [if_neg (by rw [hitems]; nofun), if_neg (by rw [hitems]; nofun)]
  have hretained : t.retained turn = turn.clip [a, c] := by
    unfold TurnWalk.retained
    rw [hclipped, hitems]
    rfl
  have hstate : (viewOf [a, b, c]).turns = [turn] := rfl
  have hflag : (t.headed turn).removed = true := by
    unfold TurnWalk.headed
    dsimp only
    rw [hremoved]
    rfl
  have hleft : t.retained turn :: (t.headed turn).turns = [turn.clip [a, c]] := by
    rw [hretained]
    exact congrArg _ hturns
  unfold retainLiveWindow
  rw [hstate, hwalked]
  dsimp only
  rw [hflag, hleft]
  refine ⟨rfl, fun q hq => ?_⟩
  have hfirst : [a, c].findSome? (itemHistoryQuery (ascii "t")) = some q := by
    rw [List.findSome?_cons, hq]
  change ((([a, c].findSome? (itemHistoryQuery (ascii "t"))).or _).or _).or _ = _
  rw [hfirst]
  rfl

def textEntry (text : JsString) : TranscriptItem where
  key := ascii "text:k"
  body := .text { messageId := some (ascii "entry:1:0"), text, firstSequence := 1, lastSequence := 1 }

def runningTool : TranscriptItem where
  key := ascii "tool:task:1"
  body := .tool { toolCallId := ascii "task:1", toolName := ascii "bash", input := .null,
                  status := .running, firstSequence := 1, startedAt := [] }

theorem exists_large : ∃ text : JsString, historyLiveCharacters < text.length :=
  ⟨List.replicate (historyLiveCharacters + 1) 0x61, by
    rw [List.length_replicate]
    exact Nat.lt_succ_self _⟩

/-- A text larger than the whole budget goes, and a smaller one before it stays. And a running tool
that stays is where scrolling back starts, although something after it has gone. -/
theorem live_window_gaps : ¬ ∃ stringify : TranscriptItem → JsString,
    (∀ state, (entries (retainLiveWindow stringify state).turns).filter settled <:+
      (entries state.turns).filter settled) ∨
    ∀ state older e newer, entries state.turns = older ++ e :: newer →
      (itemHistoryQuery e.1 e.2).isSome = true →
      (retainLiveWindow stringify state).historyAnchor = itemHistoryQuery e.1 e.2 →
      ∃ kept, entries (retainLiveWindow stringify state).turns = kept ++ e :: newer := by
  rintro ⟨stringify, hclaim⟩
  obtain ⟨text, htext⟩ := exists_large
  obtain ⟨large, hlarge⟩ : ∃ item, item = textEntry text := ⟨_, rfl⟩
  have hsize : historyLiveCharacters < large.characters stringify := by
    rw [hlarge]
    exact Nat.lt_add_right 256 htext
  have hrunning : large.isRunningTool = false := by rw [hlarge]; rfl
  have hne : textEntry [] ≠ large := by
    rintro rfl
    injection hlarge with _ _ _ _ hbody
    injection hbody with hbody
    injection hbody with _ hempty
    rw [← hempty] at htext
    exact absurd htext (Nat.not_lt_zero _)
  obtain hsuffix | hanchor := hclaim
  · have hfits : (textEntry []).characters stringify + (textEntry []).characters stringify ≤
        historyLiveCharacters := by
      change 0 + 256 + (0 + 256) ≤ historyLiveCharacters
      decide
    obtain ⟨hentries, -⟩ := middle_removed (.inr hfits) hrunning hsize
    have hcase := hsuffix (viewOf [textEntry [], large, textEntry []])
    rw [hentries] at hcase
    obtain ⟨gone, hgone⟩ := hcase
    have hall : (entries (viewOf [textEntry [], large, textEntry []]).turns).filter settled =
        [(ascii "t", textEntry []), (ascii "t", large), (ascii "t", textEntry [])] := by
      refine List.filter_eq_self.mpr fun e he => ?_
      obtain rfl | rfl | rfl : e = (ascii "t", textEntry []) ∨ e = (ascii "t", large) ∨
          e = (ascii "t", textEntry []) := by simpa [viewOf, entries] using he
      · rfl
      · unfold settled
        rw [hrunning]
        rfl
      · rfl
    rw [hall] at hgone
    change gone ++ [(ascii "t", textEntry []), (ascii "t", textEntry [])] =
      [(ascii "t", textEntry []), (ascii "t", large), (ascii "t", textEntry [])] at hgone
    have hlength := congrArg List.length hgone
    rw [List.length_append] at hlength
    obtain ⟨x, rfl⟩ := List.length_eq_one_iff.mp (Nat.add_right_cancel (m := 2) hlength)
    rw [List.singleton_append] at hgone
    injection hgone with _ hrest
    injection hrest with hpair
    exact hne (congrArg Prod.snd hpair)
  · obtain ⟨hentries, hplace⟩ := middle_removed (a := runningTool)
      (c := textEntry []) (.inl rfl) hrunning hsize
    have hsome : (itemHistoryQuery (ascii "t") runningTool).isSome = true := by decide
    obtain ⟨q, hq⟩ := Option.isSome_iff_exists.mp hsome
    obtain ⟨kept, hkept⟩ := hanchor (viewOf [runningTool, large, textEntry []]) []
      (ascii "t", runningTool) [(ascii "t", large), (ascii "t", textEntry [])] rfl hsome
      ((hplace q hq).trans hq.symm)
    rw [hentries] at hkept
    have hlength := congrArg List.length hkept
    rw [List.length_append] at hlength
    change 2 = kept.length + 3 at hlength
    omega

end Web
end PiCloud
