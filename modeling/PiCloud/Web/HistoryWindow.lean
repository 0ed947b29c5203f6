import PiCloud.Lib.VersionMerge
import PiCloud.Web.SessionView

/-!
# Web.HistoryWindow

The pages of history a reader has scrolled to, `history-window.ts`, and what they come to.

* `PageTurn`, `HistoryPage`: the part of a turn that is on a page.
* `mergeHistoryPages`, `appendHistoryPage`: the turns to show, and the window with one more page.
* `pageItems`, `pageTurns`: both merges as merges of versions.
* `history_pages_merged`: nothing is lost or shown twice, and the order is the one of the pages.
* `pages_lost_or_misplaced`: a fifth page evicts another; a page on the wrong side breaks the order.
-/

namespace PiCloud
namespace Web

open Lib Protocol PiCloud.Runtime

/-! ## Items -/

namespace TranscriptItem

def sequence (item : TranscriptItem) : Nat :=
  match item.body with
  | .user i => i.lastSequence
  | .text i => i.lastSequence
  | .toolPreparing i => i.firstSequence
  | .hostedSearch i => i.lastSequence.getD i.firstSequence
  | .tool i => i.lastSequence.getD i.firstSequence
  | .notification i => i.sequence
  | .compaction i => i.lastSequence.getD i.firstSequence
  | .retry i => i.sequence

/-- `itemIdentity` -/
def identity (item : TranscriptItem) : JsString :=
  match item.body with
  | .text i => ascii "text:" ++ i.messageId.getD item.key
  | _ => item.key

def keptPage (prior own : Option JsString) : Option JsString :=
  match prior with
  | some pageKey => if pageKey = [] then own else some pageKey
  | none => own

def inPlaceOf (item prior : TranscriptItem) : TranscriptItem :=
  { item with key := prior.key, pageKey := keptPage prior.pageKey item.pageKey }

def version (item : TranscriptItem) : TranscriptItem := { item with key := [], pageKey := none }

/-- The keys of texts, and only these, start with `text:`; no message is called so. -/
def Plain (item : TranscriptItem) : Prop :=
  match item.body with
  | .text i => (∀ messageId, i.messageId = some messageId → ¬ ascii "text:" <+: messageId) ∧
      ascii "text:" <+: item.key
  | _ => ¬ ascii "text:" <+: item.key

end TranscriptItem

/-! ## Pages -/

structure PageTurn where
  view : TurnView
  uploads : Option Json := none
  continuesBefore : Bool := false
  continuesAfter : Bool := false

structure HistoryPage where
  turns : List PageTurn
  /-- `history.before` -/
  before : Option JsString
  /-- `history.after` -/
  after : Option JsString

def historyBrowserPages : Nat := 4

inductive Direction where
  | before | after

def mergeItem (items : InsertionMap JsString TranscriptItem) (item : TranscriptItem) :
    InsertionMap JsString TranscriptItem :=
  match items.get item.identity with
  | none => items.set item.identity item
  | some prior =>
    if prior.sequence ≤ item.sequence then items.set item.identity (item.inPlaceOf prior) else items

/-- `new Map(items.map((item) => [itemIdentity(item), item]))` -/
def itemMap (items : List TranscriptItem) : InsertionMap JsString TranscriptItem :=
  items.foldl (fun m item => m.set item.identity item) {}

/-- A turn that is on an earlier page as well. -/
def PageTurn.joined (old turn : PageTurn) : PageTurn where
  view := { turn.view with
    items := (turn.view.items.foldl mergeItem (itemMap old.view.items)).values
    prompt := if old.continuesBefore then turn.view.prompt else old.view.prompt }
  uploads := old.uploads.or turn.uploads
  continuesBefore := old.continuesBefore && turn.continuesBefore
  continuesAfter := turn.continuesAfter

def mergeTurn (turns : InsertionMap JsString PageTurn) (turn : PageTurn) :
    InsertionMap JsString PageTurn :=
  match turns.get turn.view.turnId with
  | none => turns.set turn.view.turnId turn
  | some old => turns.set turn.view.turnId (old.joined turn)

def mergeHistoryPages (pages : List HistoryPage) : List PageTurn :=
  ((pages.flatMap fun page => page.turns).foldl mergeTurn {}).values

def samePage (a b : HistoryPage) : Bool := a.before = b.before && a.after = b.after

def appendHistoryPage (pages : List HistoryPage) (page : HistoryPage) (direction : Direction) :
    List HistoryPage :=
  let previous := pages.filter fun p => !samePage p page
  match direction with
  | .before => (page :: previous).take historyBrowserPages
  | .after =>
    let result := previous ++ [page]
    result.drop (result.length - historyBrowserPages)

/-! ## The merges as merges of versions -/

theorem text_identity {item : TranscriptItem} (h : item.Plain) :
    ascii "text:" <+: item.identity ↔ ∃ i, item.body = .text i := by
  unfold TranscriptItem.identity TranscriptItem.Plain at *
  cases hbody : item.body with
  | text i => exact iff_of_true (List.prefix_append ..) ⟨i, rfl⟩
  | _ =>
    rw [hbody] at h
    exact iff_of_false h (by rintro ⟨i, hi⟩; cases hi)

theorem same_key {p x : TranscriptItem} (hp : p.Plain) (hx : x.Plain) (h : p.identity = x.identity) :
    p.key = x.key ∨ ∃ i j, p.body = .text i ∧ x.body = .text j ∧ j.messageId.isSome := by
  have htext := (text_identity hp).symm.trans (h ▸ text_identity hx)
  by_cases hj : ∃ j, x.body = .text j
  · obtain ⟨i, hi⟩ := htext.mpr hj
    obtain ⟨j, hj⟩ := hj
    unfold TranscriptItem.identity TranscriptItem.Plain at *
    rw [hi] at h hp
    rw [hj] at h hx
    dsimp only at h hp hx
    have heq := List.append_cancel_left h
    cases hmessage : j.messageId with
    | some id => exact .inr ⟨i, j, hi, hj, by rw [hmessage]; rfl⟩
    | none =>
      rw [hmessage, Option.getD_none] at heq
      cases hprior : i.messageId with
      | none =>
        rw [hprior] at heq
        exact .inl heq
      | some id =>
        rw [hprior] at heq
        refine absurd ?_ (hp.1 id hprior)
        rw [Option.getD_some] at heq
        rw [heq]
        exact hx.2
  · have hi : ¬ ∃ i, p.body = .text i := fun hi => hj (htext.mp hi)
    have hidentity : ∀ y : TranscriptItem, (¬ ∃ i, y.body = .text i) → y.identity = y.key := by
      intro y hy
      unfold TranscriptItem.identity
      split
      · rename_i i hbody
        exact absurd ⟨i, hbody⟩ hy
      · rfl
    exact .inl ((hidentity p hi).symm.trans (h.trans (hidentity x hj)))

theorem identity_inPlaceOf {p x : TranscriptItem} (hp : p.Plain) (hx : x.Plain)
    (h : p.identity = x.identity) : (x.inPlaceOf p).identity = x.identity := by
  obtain hkey | ⟨-, j, -, hj, hmessage⟩ := same_key hp hx h
  · unfold TranscriptItem.identity TranscriptItem.inPlaceOf
    dsimp only
    rw [hkey]
  · obtain ⟨id, hid⟩ := Option.isSome_iff_exists.mp hmessage
    unfold TranscriptItem.identity TranscriptItem.inPlaceOf
    dsimp only
    rw [hj]
    dsimp only
    rw [hid]
    rfl

theorem plain_inPlaceOf {p x : TranscriptItem} (hp : p.Plain) (hx : x.Plain)
    (h : p.identity = x.identity) : (x.inPlaceOf p).Plain := by
  obtain hkey | ⟨i, j, hi, hj, -⟩ := same_key hp hx h
  · unfold TranscriptItem.Plain TranscriptItem.inPlaceOf at *
    dsimp only
    rw [hkey]
    exact hx
  · unfold TranscriptItem.Plain TranscriptItem.inPlaceOf at *
    dsimp only
    rw [hj] at hx ⊢
    rw [hi] at hp
    exact ⟨hx.1, hp.2⟩

theorem keptPage_self (own : Option JsString) : TranscriptItem.keptPage own own = own := by
  unfold TranscriptItem.keptPage
  split
  · exact ite_self _
  · rfl

theorem keptPage_again (prior own : Option JsString) :
    TranscriptItem.keptPage (TranscriptItem.keptPage prior own) own =
      TranscriptItem.keptPage prior own := by
  cases prior with
  | none => exact keptPage_self own
  | some pageKey =>
    by_cases hempty : pageKey = []
    · have hown : TranscriptItem.keptPage (some pageKey) own = own := if_pos hempty
      rw [hown, keptPage_self]
    · have hprior : TranscriptItem.keptPage (some pageKey) own = some pageKey := if_neg hempty
      rw [hprior, hprior]

def pageItems : Renewal JsString TranscriptItem TranscriptItem where
  identity := TranscriptItem.identity
  sequence := TranscriptItem.sequence
  version := TranscriptItem.version
  renew p x := x.inPlaceOf p
  Good := TranscriptItem.Plain
  identity_renew := identity_inPlaceOf
  good_renew := plain_inPlaceOf
  sequence_renew _ _ := rfl
  version_renew _ _ := rfl
  renew_self {x} _ := congrArg (fun pageKey => { x with pageKey }) (keptPage_self x.pageKey)
  renew_again {p x} _ _ _ :=
    congrArg (fun pageKey => { x with key := p.key, pageKey }) (keptPage_again p.pageKey x.pageKey)

theorem mergeItem_eq : mergeItem = pageItems.mergeOne := by
  funext items item
  unfold mergeItem Renewal.mergeOne
  have hidentity : pageItems.identity item = item.identity := rfl
  rw [hidentity]
  cases items.get item.identity with
  | none => rfl
  | some prior => rfl

theorem itemMap_eq : itemMap = pageItems.index := rfl

structure PageTurn.Sound (turn : PageTurn) : Prop where
  plain : ∀ item ∈ turn.view.items, item.Plain
  nodup : (turn.view.items.map TranscriptItem.identity).Nodup

def Holds (turn : PageTurn) (items : List TranscriptItem) : Prop :=
  ∃ m, pageItems.Merged m items ∧ turn.view.items = m.values

theorem PageTurn.Sound.holds {turn : PageTurn} (h : turn.Sound) : Holds turn turn.view.items := by
  have hmerged : pageItems.Merged (pageItems.index turn.view.items) turn.view.items :=
    Renewal.merged_index h.nodup h.plain
  refine ⟨_, hmerged, ?_⟩
  unfold InsertionMap.values
  rw [Renewal.entries_index h.nodup, List.map_map]
  exact (List.map_id _).symm

theorem Holds.joined {old turn : PageTurn} {items : List TranscriptItem} (h : Holds old items)
    (hturn : turn.Sound) : Holds (old.joined turn) (items ++ turn.view.items) := by
  obtain ⟨m, hm, hitems⟩ := h
  refine ⟨_, hm.all hturn.plain, ?_⟩
  unfold PageTurn.joined
  dsimp only
  rw [hitems, mergeItem_eq, itemMap_eq, hm.index_values]
  rfl

theorem Holds.sound {turn : PageTurn} {items : List TranscriptItem} (h : Holds turn items) :
    turn.Sound := by
  obtain ⟨m, hm, hitems⟩ := h
  constructor
  · intro item hitem
    rw [hitems] at hitem
    obtain ⟨k, hk⟩ := InsertionMap.mem_values.mp hitem
    exact (hm.held hk).2
  · rw [hitems]
    have := hm.identities
    change (m.values.map pageItems.identity).Nodup
    rw [this]
    exact m.nodup

theorem joined_items_again {old turn : PageTurn} (hold : old.Sound) (hturn : turn.Sound) :
    ((old.joined turn).joined turn).view.items = (old.joined turn).view.items := by
  obtain ⟨m, hm, hitems⟩ := hold.holds
  have hall := hm.all hturn.plain
  have hjoined : (old.joined turn).view.items = (pageItems.mergeAll m turn.view.items).values := by
    unfold PageTurn.joined
    dsimp only
    rw [hitems, mergeItem_eq, itemMap_eq, hm.index_values]
    rfl
  have hagain := Renewal.mergeAll_again hm hturn.plain hturn.nodup
  change (turn.view.items.foldl mergeItem (itemMap (old.joined turn).view.items)).values = _
  rw [hjoined, mergeItem_eq, itemMap_eq, hall.index_values]
  exact congrArg _ hagain

theorem joined_self_items {turn : PageTurn} (h : turn.Sound) :
    (turn.joined turn).view.items = turn.view.items := by
  obtain ⟨m, hm, hitems⟩ := h.holds
  have hsettled : pageItems.mergeAll m turn.view.items = m := by
    refine Renewal.mergeAll_settled fun y hy => ?_
    rw [hitems] at hy
    obtain ⟨k, hk⟩ := InsertionMap.mem_values.mp hy
    obtain ⟨hidentity, hplain⟩ := hm.held hk
    exact ⟨y, hidentity.symm ▸ hk, .inr (pageItems.renew_self hplain)⟩
  change (turn.view.items.foldl mergeItem (itemMap turn.view.items)).values = _
  conv_rhs => rw [hitems]
  rw [mergeItem_eq, itemMap_eq]
  have hindex : pageItems.index turn.view.items = m := by rw [hitems, hm.index_values]
  rw [hindex]
  exact congrArg _ hsettled

def pageTurns : Renewal JsString PageTurn Unit where
  identity turn := turn.view.turnId
  sequence _ := 0
  version _ := ()
  renew := PageTurn.joined
  Good := PageTurn.Sound
  identity_renew _ _ _ := rfl
  good_renew hold hturn _ := (hold.holds.joined hturn).sound
  sequence_renew _ _ := rfl
  version_renew _ _ := rfl
  renew_self {turn} h := by
    obtain ⟨view, uploads, before, after⟩ := turn
    have hitems := joined_self_items h
    unfold PageTurn.joined at *
    dsimp only at hitems ⊢
    rw [hitems, ite_self, Bool.and_self]
    cases uploads <;> rfl
  renew_again {old turn} hold hturn _ := by
    have hitems := joined_items_again hold hturn
    obtain ⟨view, uploads, before, after⟩ := old
    obtain ⟨view', uploads', before', after'⟩ := turn
    unfold PageTurn.joined at *
    dsimp only at hitems ⊢
    rw [hitems]
    cases before <;> cases before' <;> cases uploads <;> cases uploads' <;> rfl

theorem mergeTurn_eq : mergeTurn = pageTurns.mergeOne := by
  funext turns turn
  unfold mergeTurn Renewal.mergeOne
  have hidentity : pageTurns.identity turn = turn.view.turnId := rfl
  rw [hidentity]
  cases turns.get turn.view.turnId with
  | none => rfl
  | some old => rfl

/-! ## What the pages come to -/

structure HistoryPage.Sound (page : HistoryPage) : Prop where
  turns : ∀ turn ∈ page.turns, turn.Sound
  nodup : (page.turns.map fun turn => turn.view.turnId).Nodup

def partsOf (pages : List HistoryPage) (turnId : JsString) : List PageTurn :=
  (pages.flatMap fun page => page.turns).filter fun turn => turn.view.turnId = turnId

def shownOf (pages : List HistoryPage) (turnId : JsString) : List TranscriptItem :=
  (partsOf pages turnId).flatMap fun turn => turn.view.items

def PageTurn.identities (turn : PageTurn) : List JsString :=
  turn.view.items.map TranscriptItem.identity

variable {pages : List HistoryPage}

theorem merged_pages (hpages : ∀ page ∈ pages, page.Sound) :
    pageTurns.Merged ((pages.flatMap fun page => page.turns).foldl mergeTurn {})
      (pages.flatMap fun page => page.turns) := by
  rw [mergeTurn_eq]
  refine Renewal.merged_empty.all fun turn hturn => ?_
  obtain ⟨page, hpage, hturn⟩ := List.mem_flatMap.mp hturn
  exact (hpages page hpage).turns turn hturn

theorem holds_of_mem (hpages : ∀ page ∈ pages, page.Sound) {turn : PageTurn}
    (hturn : turn ∈ mergeHistoryPages pages) : Holds turn (shownOf pages turn.view.turnId) := by
  have hmerged := merged_pages hpages
  obtain ⟨k, hk⟩ := InsertionMap.mem_values.mp hturn
  have hid : turn.view.turnId = k := (hmerged.held hk).1
  subst hid
  rw [mergeTurn_eq] at hk
  refine Renewal.mergeAll_each (r := pageTurns)
    (P := fun v ts => Holds v (ts.flatMap fun turn => turn.view.items)) ?_ ?_ ?_ ?_ hk
  · intro turn hsound
    rw [List.flatMap_singleton]
    exact hsound.holds
  · intro old turn ts _ hsound _ hholds
    rw [List.flatMap_append, List.flatMap_singleton]
    exact hholds.joined hsound
  · exact fun _ _ => Nat.le_refl 0
  · intro turn hin
    obtain ⟨page, hpage, hin⟩ := List.mem_flatMap.mp hin
    exact (hpages page hpage).turns turn hin

theorem identities_of_holds {turn : PageTurn} {parts : List PageTurn}
    (h : Holds turn (parts.flatMap fun part => part.view.items)) :
    turn.identities = addAll (parts.map PageTurn.identities) := by
  obtain ⟨m, hm, hitems⟩ := h
  unfold PageTurn.identities
  rw [hitems]
  change m.values.map pageItems.identity = _
  rw [hm.identities, hm.keys, addAll_flatten]
  congr 1
  rw [List.map_flatMap, List.flatMap_def]
  rfl

theorem turnIds_eq (hpages : ∀ page ∈ pages, page.Sound) :
    (mergeHistoryPages pages).map (fun turn => turn.view.turnId) =
      addAll (pages.map fun page => page.turns.map fun turn => turn.view.turnId) := by
  have hmerged := merged_pages hpages
  refine hmerged.identities.trans ?_
  rw [hmerged.keys, addAll_flatten]
  congr 1
  rw [List.map_flatMap, List.flatMap_def]
  rfl

/-- Each version of a turn's items that is shown is the latest one of its identity on the pages. -/
def Latest (pages : List HistoryPage) (turn : PageTurn) : Prop :=
  ∀ item ∈ turn.view.items,
    (∃ source ∈ shownOf pages turn.view.turnId,
      source.identity = item.identity ∧ source.version = item.version) ∧
    ∀ other ∈ shownOf pages turn.view.turnId,
      other.identity = item.identity → other.sequence ≤ item.sequence

theorem latest_of_holds {turn : PageTurn} (h : Holds turn (shownOf pages turn.view.turnId)) :
    Latest pages turn := by
  obtain ⟨m, hm, hitems⟩ := h
  intro item hitem
  rw [hitems] at hitem
  obtain ⟨k, hk⟩ := InsertionMap.mem_values.mp hitem
  have hidentity : item.identity = k := (hm.held hk).1
  constructor
  · obtain ⟨source, hin, hsource, hversion, -⟩ := hm.source hk
    exact ⟨source, hin, hsource.trans hidentity.symm, hversion⟩
  · exact fun other hin hother => hm.newest hk other hin (hother.trans hidentity)

theorem mergeHistoryPages_again (hpages : ∀ p ∈ pages, p.Sound) {page : HistoryPage}
    (hpage : page.Sound) :
    mergeHistoryPages (pages ++ [page, page]) = mergeHistoryPages (pages ++ [page]) := by
  have hmerged := merged_pages hpages
  have hagain := Renewal.mergeAll_again hmerged hpage.turns hpage.nodup
  unfold mergeHistoryPages
  rw [List.flatMap_append, List.flatMap_append, List.foldl_append, List.foldl_append]
  rw [mergeTurn_eq] at hagain ⊢
  have htwice : [page, page].flatMap (fun page => page.turns) = page.turns ++ page.turns := by
    rw [List.flatMap_cons, List.flatMap_singleton]
  rw [htwice, List.flatMap_singleton, List.foldl_append]
  exact congrArg _ hagain

/-! ## The window -/

section Window

variable {page : HistoryPage} {direction : Direction}

theorem samePage_self (page : HistoryPage) : samePage page page = true := by
  unfold samePage
  rw [decide_eq_true rfl, decide_eq_true rfl]
  rfl

theorem window_before :
    appendHistoryPage pages page .before =
      page :: (pages.filter fun p => !samePage p page).take 3 := rfl

theorem window_after :
    appendHistoryPage pages page .after =
      (pages.filter fun p => !samePage p page).drop
        ((pages.filter fun p => !samePage p page).length - 3) ++ [page] := by
  unfold appendHistoryPage
  dsimp only
  have hbudget : ∀ n : Nat, n + 1 - historyBrowserPages = n - 3 := fun n => Nat.add_sub_add_right n 1 3
  rw [List.length_append, List.length_singleton, hbudget, List.drop_append_of_le_length (Nat.sub_le ..)]

theorem mem_appendHistoryPage {p : HistoryPage} (h : p ∈ appendHistoryPage pages page direction) :
    p = page ∨ p ∈ pages := by
  cases direction with
  | before =>
    rw [window_before] at h
    exact (List.mem_cons.mp h).imp_right fun h => List.mem_of_mem_filter (List.mem_of_mem_take h)
  | after =>
    rw [window_after] at h
    refine (List.mem_append.mp h).symm.imp List.mem_singleton.mp fun h => ?_
    exact List.mem_of_mem_filter (List.mem_of_mem_drop h)

theorem page_mem : page ∈ appendHistoryPage pages page direction := by
  cases direction with
  | before => exact List.mem_cons_self ..
  | after =>
    rw [window_after]
    exact List.mem_append_right _ (List.mem_singleton_self page)

theorem stays {p : HistoryPage} (hp : p ∈ pages) (hsame : samePage p page = false)
    (hroom : pages.length < historyBrowserPages) : p ∈ appendHistoryPage pages page direction := by
  have hin : p ∈ pages.filter fun p => !samePage p page :=
    List.mem_filter.mpr ⟨hp, by rw [hsame]; rfl⟩
  have hlength : (pages.filter fun p => !samePage p page).length ≤ 3 :=
    Nat.le_trans (List.length_filter_le ..) (Nat.le_of_lt_succ hroom)
  cases direction with
  | before =>
    rw [window_before, List.take_of_length_le hlength]
    exact List.mem_cons_of_mem _ hin
  | after =>
    rw [window_after, Nat.sub_eq_zero_of_le hlength]
    exact List.mem_append_left _ hin

theorem filter_others {previous : List HistoryPage}
    (h : ∀ p ∈ previous, (!samePage p page) = true) :
    (previous.filter fun p => !samePage p page) = previous := List.filter_eq_self.mpr h

theorem others_drop : [page].filter (fun p => !samePage p page) = [] := by
  rw [List.filter_singleton, samePage_self]
  rfl

theorem appendHistoryPage_again :
    appendHistoryPage (appendHistoryPage pages page direction) page direction =
      appendHistoryPage pages page direction := by
  set previous := pages.filter fun p => !samePage p page with hprevious
  have hothers : ∀ p ∈ previous, (!samePage p page) = true := fun p hp => (List.mem_filter.mp hp).2
  cases direction with
  | before =>
    have hwindow : appendHistoryPage pages page .before = page :: previous.take 3 := rfl
    rw [hwindow, window_before, List.filter_cons_of_neg (by rw [samePage_self]; nofun),
      filter_others fun p hp => hothers p (List.mem_of_mem_take hp), List.take_take, Nat.min_self]
  | after =>
    have hwindow : appendHistoryPage pages page .after =
        previous.drop (previous.length - 3) ++ [page] := window_after
    rw [hwindow, window_after, List.filter_append, others_drop, List.append_nil,
      filter_others fun p hp => hothers p (List.mem_of_mem_drop hp), List.length_drop]
    have hshort : previous.length - (previous.length - 3) - 3 = 0 := by omega
    rw [hshort, List.drop_zero]

end Window

/-! ## The result -/

/-- What the window comes to after one more page. Every turn, and every item of it, is listed once, and
nothing is listed that is not on the pages of the window, nor left out; an item is the version of the
highest sequence. Turns and items are in the order of the transcript where the pages are: where what a
page adds to one before it comes after that. The new page is in the window, and so is every other one
while there is room, unless it has the same boundaries. The same page once more changes nothing. -/
theorem history_pages_merged {page : HistoryPage} (direction : Direction)
    (hpages : ∀ p ∈ pages, p.Sound) (hpage : page.Sound) :
    let window := appendHistoryPage pages page direction
    let turns := mergeHistoryPages window
    (turns.map fun turn => turn.view.turnId).Nodup ∧
    (∀ t, t ∈ turns.map (fun turn => turn.view.turnId) ↔ partsOf window t ≠ []) ∧
    (∀ turn ∈ turns, turn.identities.Nodup ∧
      (∀ k, k ∈ turn.identities ↔ ∃ item ∈ shownOf window turn.view.turnId, item.identity = k) ∧
      Latest window turn) ∧
    (∀ older, InOrder older (window.map fun p => p.turns.map fun turn => turn.view.turnId) →
      (turns.map fun turn => turn.view.turnId).Pairwise older) ∧
    (∀ turn ∈ turns, ∀ older,
      InOrder older ((partsOf window turn.view.turnId).map PageTurn.identities) →
      turn.identities.Pairwise older) ∧
    page ∈ window ∧
    (∀ p ∈ pages, samePage p page = false → pages.length < historyBrowserPages → p ∈ window) ∧
    appendHistoryPage window page direction = window ∧
    mergeHistoryPages (pages ++ [page, page]) = mergeHistoryPages (pages ++ [page]) := by
  intro window turns
  have hwindow : ∀ p ∈ window, p.Sound := by
    intro p hp
    obtain rfl | hp := mem_appendHistoryPage hp
    · exact hpage
    · exact hpages p hp
  have hmerged := merged_pages hwindow
  have hids := hmerged.identities
  refine ⟨?_, ?_, ?_, ?_, ?_, page_mem, fun p hp => stays hp, appendHistoryPage_again,
    mergeHistoryPages_again hpages hpage⟩
  · have hkeys : turns.map (fun turn => turn.view.turnId) = _ := hids
    rw [hkeys]
    exact InsertionMap.nodup _
  · intro t
    have hkeys := hmerged.mem_keys (k := t)
    rw [← hids] at hkeys
    refine hkeys.trans ?_
    unfold partsOf
    rw [ne_eq, List.filter_eq_nil_iff]
    constructor
    · rintro ⟨turn, hturn, hid⟩ hnone
      exact hnone turn hturn (decide_eq_true hid)
    · intro hsome
      by_contra hnone
      exact hsome fun turn hturn hid => hnone ⟨turn, hturn, of_decide_eq_true hid⟩
  · intro turn hturn
    have hholds := holds_of_mem hwindow hturn
    refine ⟨hholds.sound.nodup, fun k => ?_, latest_of_holds hholds⟩
    obtain ⟨m, hm, hitems⟩ := hholds
    have hidentities : turn.identities = m.keys := by
      unfold PageTurn.identities
      rw [hitems]
      exact hm.identities
    rw [hidentities]
    exact hm.mem_keys
  · intro older horder
    rw [turnIds_eq hwindow]
    exact pairwise_addAll horder
  · intro turn hturn older horder
    rw [identities_of_holds (holds_of_mem hwindow hturn)]
    exact pairwise_addAll horder

/-! ## What the pages do not give -/

def textItem (key : String) : TranscriptItem where
  key := ascii "text:" ++ ascii key
  body := .text { text := ascii key, firstSequence := 1, lastSequence := 1 }

/-- A page with texts of one turn. -/
def textPage (turnId : String) (keys : List String) (cursor : String) : HistoryPage where
  turns := [{ view := { turnId := ascii turnId, status := .completed, items := keys.map textItem } }]
  before := some (ascii cursor)
  after := some (ascii cursor)

theorem textPage_sound (turnId : String) (keys : List String) (cursor : String)
    (h : ((keys.map textItem).map TranscriptItem.identity).Nodup) :
    (textPage turnId keys cursor).Sound where
  turns turn hturn := by
    cases List.mem_singleton.mp hturn
    refine ⟨fun item hitem => ?_, h⟩
    obtain ⟨key, -, rfl⟩ := List.mem_map.mp hitem
    exact ⟨fun _ h => (nomatch h), List.prefix_append ..⟩
  nodup := List.nodup_singleton _

def fourPages : List HistoryPage :=
  [textPage "t1" ["1"] "c1", textPage "t2" ["2"] "c2", textPage "t3" ["3"] "c3",
    textPage "t4" ["4"] "c4"]

theorem fourPages_sound : ∀ p ∈ fourPages, p.Sound := by
  intro p hp
  simp only [fourPages, List.mem_cons, List.not_mem_nil, or_false] at hp
  obtain rfl | rfl | rfl | rfl := hp <;> exact textPage_sound _ _ _ (List.nodup_singleton _)

theorem history_pages_merged_four :
    let page := textPage "t5" ["5"] "c5"
    appendHistoryPage (appendHistoryPage fourPages page .after) page .after =
      appendHistoryPage fourPages page .after := by
  obtain ⟨-, -, -, -, -, -, -, hagain, -⟩ := history_pages_merged .after fourPages_sound
    (textPage_sound "t5" ["5"] "c5" (List.nodup_singleton _))
  exact hagain

/-- A fifth page evicts the one at the other end, and its items with it. And a page that starts before
the window, appended after it, leaves its first items behind the later ones. -/
theorem pages_lost_or_misplaced :
    (¬ ∀ (pages : List HistoryPage) (page : HistoryPage) (direction : Direction),
      (∀ p ∈ pages, p.Sound) → page.Sound → ∀ p ∈ pages, ∀ turn ∈ p.turns, ∀ k ∈ turn.identities,
        ∃ turn' ∈ mergeHistoryPages (appendHistoryPage pages page direction),
          k ∈ turn'.identities) ∧
    ¬ ∀ (pages : List HistoryPage) (page : HistoryPage) (direction : Direction),
      (∀ p ∈ pages, p.Sound) → page.Sound →
        (∀ p ∈ page :: pages, ∀ turn ∈ p.turns, turn.identities.Pairwise (· < ·)) →
        ∀ turn ∈ mergeHistoryPages (appendHistoryPage pages page direction),
          turn.identities.Pairwise (· < ·) := by
  constructor
  · intro h
    obtain ⟨turn', hturn', hk⟩ := h fourPages (textPage "t5" ["5"] "c5") .after fourPages_sound
      (textPage_sound _ _ _ (List.nodup_singleton _)) (textPage "t1" ["1"] "c1") (List.mem_cons_self ..) _
      (List.mem_singleton_self _) (ascii "text:text:1") (by decide)
    have hidentities : ∀ turn' ∈ mergeHistoryPages
        (appendHistoryPage fourPages (textPage "t5" ["5"] "c5") .after),
        ascii "text:text:1" ∉ turn'.identities := by decide
    exact hidentities turn' hturn' hk
  · intro h
    have hsorted := h [textPage "t" ["2", "3"] "c2"] (textPage "t" ["1", "2"] "c1") .after
      (fun p hp => List.mem_singleton.mp hp ▸ textPage_sound _ _ _ (by decide))
      (textPage_sound _ _ _ (by decide)) (by decide)
    revert hsorted
    decide

end Web
end PiCloud
