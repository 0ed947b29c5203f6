import PiCloud.Web.SessionView
import PiCloud.Lib.Grouping
import PiCloud.Lib.Record

/-!
# Web.PresentationRows

The rows a conversation is shown in: adjacent tools, searches and retries are folded, and the order
of the transcript stays.

* `inlineToolImages`: the images a completed tool shows.
* `deriveConversationPresentationRows`: the rows of a list of items.
* `rows_transcript`: what the rows hold of the items, row by row.
-/

namespace PiCloud
namespace Web

open Lib Protocol PiCloud.Runtime

/-! ## Images of a tool -/

def imageTools : List JsString := ["show_image", "generate_image", "android_observe"].map ascii

def asObject : Json → Option Members
  | .obj m => some m
  | _ => none

/-- `[0-9a-f-]{36}` -/
def isIdentifierText (s : JsString) : Bool :=
  s.length = 36 && s.all fun u => (0x30 ≤ u && u ≤ 0x39) || (0x61 ≤ u && u ≤ 0x66) || u = 0x2D

/-- `/^\/v1\/sessions\/[0-9a-f-]{36}\/images\/[0-9a-f-]{36}$/` -/
def isSessionImagePath (s : JsString) : Bool :=
  let root := ascii "/v1/sessions/"
  let images := ascii "/images/"
  let session := (s.drop root.length).take 36
  let tail := (s.drop root.length).drop 36
  root.isPrefixOf s && isIdentifierText session && images.isPrefixOf tail &&
    isIdentifierText (tail.drop images.length)

/-- `["image/png", …].includes(String(value))`: an array of one value is written like the value. -/
def isImageMimeType : Json → Bool
  | .str s => ["image/png", "image/jpeg", "image/webp"].any fun mime => s = ascii mime
  | .arr [v] => isImageMimeType v
  | _ => false

def isToolImage (part : Json) : Bool :=
  match asObject part with
  | none => false
  | some image =>
    match image.get "type", image.get "imageId", image.get "previewPath" with
    | some (.str type), some (.str imageId), some (.str previewPath) =>
      type = ascii "image" && isSessionImagePath previewPath &&
        (ascii "/" ++ imageId).isSuffixOf previewPath &&
        (image.get "mimeType").any isImageMimeType
    | _, _, _ => false

def inlineToolImages (tool : ToolItem) : List Json :=
  if tool.status = .completed ∧ tool.toolName ∈ imageTools then
    match tool.output.bind asObject with
    | none => []
    | some output =>
      match output.get "content" with
      | some (.arr content) => content.filter isToolImage
      | _ => []
  else []

namespace TranscriptItem

def isUser (item : TranscriptItem) : Bool := item.body matches .user _
def isTool (item : TranscriptItem) : Bool := item.body matches .tool _
def isHostedSearch (item : TranscriptItem) : Bool := item.body matches .hostedSearch _

def retryAttempt (item : TranscriptItem) : Option Nat :=
  match item.body with
  | .retry r => some r.nextSamplingAttempt
  | _ => none

def showsImages (item : TranscriptItem) : Bool :=
  match item.body with
  | .tool tool => inlineToolImages tool ≠ []
  | _ => false

end TranscriptItem

/-! ## Rows -/

inductive ConversationPresentationRow where
  | images (key : JsString) (item : TranscriptItem)
  | user (key : JsString) (item : TranscriptItem)
  | text (key : JsString) (item : TranscriptItem) (processNarration : Bool)
  | activity (key : JsString) (items : List TranscriptItem)
  | hostedSearch (key : JsString) (items : List TranscriptItem)
  | retry (key : JsString) (items : List TranscriptItem)
  | item (key : JsString) (item : TranscriptItem)

/-- `lastTools` from the index `i` on: the last tool before the next user input. -/
def lastTools (i : Nat) : List TranscriptItem → List (Option Nat)
  | [] => []
  | item :: rest =>
    let later := lastTools (i + 1) rest
    let lastTool := later.head?.join
    (if item.isUser then none
      else if item.isTool ∧ lastTool = none then some i
      else lastTool) :: later

/-- A later attempt of the same request. -/
def joinsRetries (retries : List TranscriptItem) (next : TranscriptItem) : Bool :=
  match next.retryAttempt, retries.getLast?.bind TranscriptItem.retryAttempt with
  | some attempt, some last => last < attempt
  | _, _ => false

def groupLimit : Nat := 12

def joinsTools (pageKey : Option JsString) (tools : List TranscriptItem)
    (next : TranscriptItem) : Bool :=
  !(tools.getLast?.any TranscriptItem.showsImages) && tools.length < groupLimit &&
    next.isTool && next.pageKey = pageKey

def joinsSearches (pageKey : Option JsString) (searches : List TranscriptItem)
    (next : TranscriptItem) : Bool :=
  searches.length < groupLimit && next.isHostedSearch && next.pageKey = pageKey

/-- The loop from the index `i` on; `fuel` bounds its rounds. -/
def rowsFrom (last : List (Option Nat)) :
    Nat → Nat → List TranscriptItem → List ConversationPresentationRow
  | 0, _, _ => []
  | _ + 1, _, [] => []
  | fuel + 1, i, item :: rest =>
    match item.body with
    | .user _ => .user item.key item :: rowsFrom last fuel (i + 1) rest
    | .text text =>
      let narration := text.phase = some .commentary ∨
        (text.phase = none ∧ ∃ j ∈ (last[i]?).join, i < j)
      .text item.key item narration :: rowsFrom last fuel (i + 1) rest
    | .retry _ =>
      let (retries, left) := takeGroup joinsRetries [item] rest
      .retry item.key retries :: rowsFrom last fuel (i + retries.length) left
    | .tool _ =>
      let (tools, left) := takeGroup (joinsTools item.pageKey) [item] rest
      let activity := .activity (ascii "activity:" ++ item.key) tools
      let images := (tools.getLast?.filter TranscriptItem.showsImages).map fun tool =>
        ConversationPresentationRow.images (ascii "images:" ++ tool.key) tool
      activity :: (images.toList ++ rowsFrom last fuel (i + tools.length) left)
    | .hostedSearch search =>
      let (searches, left) := takeGroup (joinsSearches item.pageKey) [item] rest
      .hostedSearch (ascii "hosted-search-group:" ++ search.activityId) searches ::
        rowsFrom last fuel (i + searches.length) left
    | _ => .item item.key item :: rowsFrom last fuel (i + 1) rest

def deriveConversationPresentationRows (items : List TranscriptItem) :
    List ConversationPresentationRow :=
  rowsFrom (lastTools 0 items) items.length 0 items

/-! ## What the rows hold -/

/-- A group of one page, of one kind of item and within the limit. -/
structure Group (kind : TranscriptItem → Bool) (items : List TranscriptItem) : Prop where
  nonempty : items ≠ []
  length : items.length ≤ groupLimit
  kind : ∀ x ∈ items, kind x = true
  page : ∀ x ∈ items, ∀ y ∈ items, x.pageKey = y.pageKey

def Attempts (items : List TranscriptItem) : Prop :=
  items ≠ [] ∧ ∃ attempts : List Nat, items.map TranscriptItem.retryAttempt = attempts.map some ∧
    attempts.Pairwise (· < ·)

namespace ConversationPresentationRow

def items : ConversationPresentationRow → List TranscriptItem
  | .images _ x | .user _ x | .text _ x _ | .item _ x => [x]
  | .activity _ xs | .hostedSearch _ xs | .retry _ xs => xs

def transcript : ConversationPresentationRow → List TranscriptItem
  | .images _ _ => []
  | row => row.items

def ofPage : ConversationPresentationRow → Bool
  | .activity _ _ | .hostedSearch _ _ => true
  | _ => false

def isImages : ConversationPresentationRow → Bool
  | .images _ _ => true
  | _ => false

def Formed : ConversationPresentationRow → Prop
  | .activity _ xs => Group TranscriptItem.isTool xs
  | .hostedSearch _ xs => Group TranscriptItem.isHostedSearch xs
  | .retry _ xs => Attempts xs
  | _ => True

end ConversationPresentationRow

open ConversationPresentationRow

/-- Each images row follows the activity row whose last tool it shows. -/
def ImagesFollow (rows : List ConversationPresentationRow) : Prop :=
  ∀ before after key item, rows = before ++ ConversationPresentationRow.images key item :: after →
    ∃ earlier activityKey tools, before = earlier ++ [ConversationPresentationRow.activity activityKey tools] ∧
      tools.getLast? = some item

theorem ImagesFollow.nil : ImagesFollow [] := by
  intro before after key item heq
  cases before with
  | nil => cases heq
  | cons first before => cases heq

theorem ImagesFollow.cons {row : ConversationPresentationRow}
    {rows : List ConversationPresentationRow} (hrow : row.isImages = false)
    (h : ImagesFollow rows) : ImagesFollow (row :: rows) := by
  intro before after key item heq
  cases before with
  | nil =>
    cases heq
    cases hrow
  | cons first before =>
    rw [List.cons_append] at heq
    obtain ⟨hfirst, hrest⟩ := List.cons.inj heq
    obtain ⟨earlier, activityKey, tools, rfl, hlast⟩ := h before after key item hrest
    exact ⟨first :: earlier, activityKey, tools, rfl, hlast⟩

theorem ImagesFollow.activity {rows : List ConversationPresentationRow} (h : ImagesFollow rows)
    {key imagesKey : JsString} {tools : List TranscriptItem} {last : TranscriptItem}
    (hlast : tools.getLast? = some last) :
    ImagesFollow (.activity key tools :: .images imagesKey last :: rows) := by
  intro before after key' item heq
  rcases before with _ | ⟨first, _ | ⟨second, before⟩⟩
  · cases heq
  · cases heq
    exact ⟨[], key, tools, rfl, hlast⟩
  · rw [List.cons_append, List.cons_append] at heq
    obtain ⟨-, hrest⟩ := List.cons.inj heq
    obtain ⟨-, hrest⟩ := List.cons.inj hrest
    obtain ⟨earlier, activityKey, tools', rfl, hlast'⟩ := h before after key' item hrest
    exact ⟨first :: second :: earlier, activityKey, tools', rfl, hlast'⟩

theorem Group.snoc {kind : TranscriptItem → Bool} {group : List TranscriptItem}
    {next : TranscriptItem} (h : Group kind group) (hlimit : group.length < groupLimit)
    (hkind : kind next = true) (hpage : ∀ x ∈ group, x.pageKey = next.pageKey) :
    Group kind (group ++ [next]) where
  nonempty := List.append_ne_nil_of_right_ne_nil _ (List.cons_ne_nil _ _)
  length := by
    rw [List.length_append, List.length_singleton]
    omega
  kind x hx := by
    rcases List.mem_append.mp hx with hx | hx
    · exact h.kind x hx
    · rw [List.mem_singleton.mp hx]
      exact hkind
  page x hx y hy := by
    have hto : ∀ z ∈ group ++ [next], z.pageKey = next.pageKey := by
      intro z hz
      rcases List.mem_append.mp hz with hz | hz
      · exact hpage z hz
      · rw [List.mem_singleton.mp hz]
    exact (hto x hx).trans (hto y hy).symm

theorem Group.single {kind : TranscriptItem → Bool} {item : TranscriptItem}
    (hkind : kind item = true) : Group kind [item] where
  nonempty := List.cons_ne_nil _ _
  length := by
    unfold groupLimit
    rw [List.length_singleton]
    omega
  kind x hx := by
    rw [List.mem_singleton.mp hx]
    exact hkind
  page x hx y hy := by rw [List.mem_singleton.mp hx, List.mem_singleton.mp hy]

/-- A group that starts with `item` and takes in what stands on its page. -/
theorem takeGroup_group (joins : List TranscriptItem → TranscriptItem → Bool)
    {kind : TranscriptItem → Bool} {item : TranscriptItem} (hkind : kind item = true)
    (hjoins : ∀ g next, joins g next = true →
      g.length < groupLimit ∧ kind next = true ∧ next.pageKey = item.pageKey)
    (rest : List TranscriptItem) : Group kind (takeGroup joins [item] rest).1 := by
  have hinv : Group kind (takeGroup joins [item] rest).1 ∧
      ∀ x ∈ (takeGroup joins [item] rest).1, x.pageKey = item.pageKey := by
    refine takeGroup_invariant (P := fun g => Group kind g ∧ ∀ x ∈ g, x.pageKey = item.pageKey)
      ⟨.single hkind, fun x hx => by rw [List.mem_singleton.mp hx]⟩ ?_ rest
    intro g next hg hnext
    obtain ⟨hlimit, hk, hpage⟩ := hjoins g next hnext
    refine ⟨hg.1.snoc hlimit hk fun x hx => (hg.2 x hx).trans hpage.symm, fun x hx => ?_⟩
    rcases List.mem_append.mp hx with hx | hx
    · exact hg.2 x hx
    · rw [List.mem_singleton.mp hx]
      exact hpage
  exact hinv.1

theorem joinsTools_spec {pageKey : Option JsString} {g : List TranscriptItem}
    {next : TranscriptItem} (h : joinsTools pageKey g next = true) :
    g.length < groupLimit ∧ next.isTool = true ∧ next.pageKey = pageKey := by
  unfold joinsTools at h
  simp only [Bool.and_eq_true, decide_eq_true_eq] at h
  exact ⟨h.1.1.2, h.1.2, h.2⟩

theorem joinsSearches_spec {pageKey : Option JsString} {g : List TranscriptItem}
    {next : TranscriptItem} (h : joinsSearches pageKey g next = true) :
    g.length < groupLimit ∧ next.isHostedSearch = true ∧ next.pageKey = pageKey := by
  unfold joinsSearches at h
  simp only [Bool.and_eq_true, decide_eq_true_eq] at h
  exact ⟨h.1.1, h.1.2, h.2⟩

theorem takeGroup_attempts {item : TranscriptItem} {attempt : Nat}
    (hitem : item.retryAttempt = some attempt) (rest : List TranscriptItem) :
    Attempts (takeGroup joinsRetries [item] rest).1 := by
  refine takeGroup_invariant (P := Attempts) ⟨List.cons_ne_nil _ _, [attempt], ?_, ?_⟩ ?_ rest
  · rw [List.map_singleton, List.map_singleton, hitem]
  · exact List.pairwise_singleton ..
  rintro g next ⟨hne, attempts, hmap, hsorted⟩ hnext
  unfold joinsRetries at hnext
  split at hnext
  · rename_i a last ha hlast
    have hlt : last < a := of_decide_eq_true hnext
    refine ⟨List.append_ne_nil_of_left_ne_nil hne _, attempts ++ [a], ?_, ?_⟩
    · rw [List.map_append, hmap, List.map_append, List.map_singleton, List.map_singleton, ha]
    · -- the last attempt of the group is the greatest one
      have hlast' : attempts.getLast? = some last := by
        obtain ⟨z, hz, hza⟩ := Option.bind_eq_some_iff.mp hlast
        have hmem : (g.map TranscriptItem.retryAttempt).getLast? = some (some last) := by
          rw [List.getLast?_map, hz, Option.map_some, hza]
        rw [hmap, List.getLast?_map] at hmem
        obtain ⟨b, hb, hbl⟩ := Option.map_eq_some_iff.mp hmem
        cases hbl
        exact hb
      refine List.pairwise_append.mpr ⟨hsorted, List.pairwise_singleton .., ?_⟩
      intro b hb c hc
      rw [List.mem_singleton.mp hc]
      obtain ⟨front, rfl⟩ := List.getLast?_eq_some_iff.mp hlast'
      rcases List.mem_append.mp hb with hb | hb
      · have := (List.pairwise_append.mp hsorted).2.2 b hb last List.mem_cons_self
        omega
      · rw [List.mem_singleton.mp hb]
        exact hlt
  · cases hnext

structure Rows (items : List TranscriptItem) (rows : List ConversationPresentationRow) : Prop where
  transcript : rows.flatMap ConversationPresentationRow.transcript = items
  formed : ∀ row ∈ rows, row.Formed
  images : ImagesFollow rows

theorem Rows.nil : Rows [] [] where
  transcript := rfl
  formed _ hrow := absurd hrow List.not_mem_nil
  images := .nil

theorem Rows.cons {row : ConversationPresentationRow} {rows : List ConversationPresentationRow}
    {items left : List TranscriptItem} (h : Rows left rows) (hrow : row.isImages = false)
    (hformed : row.Formed) (hitems : row.transcript ++ left = items) : Rows items (row :: rows) where
  transcript := by rw [List.flatMap_cons, h.transcript, hitems]
  formed x hx := by
    rcases List.mem_cons.mp hx with rfl | hx
    · exact hformed
    · exact h.formed x hx
  images := h.images.cons hrow

theorem rowsFrom_rows (last : List (Option Nat)) (fuel i : Nat) (items : List TranscriptItem)
    (hfuel : items.length ≤ fuel) : Rows items (rowsFrom last fuel i items) := by
  induction fuel generalizing i items with
  | zero =>
    have hnil := List.length_eq_zero_iff.mp (Nat.le_zero.mp hfuel)
    subst hnil
    exact .nil
  | succ fuel ih =>
    cases items with
    | nil => exact .nil
    | cons item rest =>
      rw [List.length_cons] at hfuel
      have hrest : ∀ j, Rows rest (rowsFrom last fuel j rest) := fun j => ih j rest (by omega)
      have hleft : ∀ joins j, Rows (takeGroup joins [item] rest).2
          (rowsFrom last fuel j (takeGroup joins [item] rest).2) := by
        intro joins j
        have := takeGroup_length joins [item] rest
        exact ih j _ (by omega)
      unfold rowsFrom
      cases hbody : item.body with
      | user input => exact (hrest _).cons rfl trivial rfl
      | text text => exact (hrest _).cons rfl trivial rfl
      | retry retry =>
        have hattempt : item.retryAttempt = some retry.nextSamplingAttempt := by
          unfold TranscriptItem.retryAttempt
          rw [hbody]
        exact (hleft _ _).cons rfl (takeGroup_attempts hattempt rest) (takeGroup_append _ [item] rest)
      | tool tool =>
        have htool : item.isTool = true := by
          unfold TranscriptItem.isTool
          rw [hbody]
        have hgroup := takeGroup_group (joinsTools item.pageKey) htool
          (fun g next => joinsTools_spec) rest
        dsimp only
        cases himages : (takeGroup (joinsTools item.pageKey) [item] rest).1.getLast?.filter
            TranscriptItem.showsImages with
        | none => exact (hleft _ _).cons rfl hgroup (takeGroup_append _ [item] rest)
        | some shown =>
          have hlast := (Option.filter_eq_some_iff.mp himages).1
          have hnext := hleft (joinsTools item.pageKey)
            (i + (takeGroup (joinsTools item.pageKey) [item] rest).1.length)
          refine ⟨?_, ?_, hnext.images.activity hlast⟩
          · show (takeGroup (joinsTools item.pageKey) [item] rest).1 ++ ([] ++ _) = _
            rw [List.nil_append]
            have happend := takeGroup_append (joinsTools item.pageKey) [item] rest
            rw [← hnext.transcript] at happend
            exact happend
          · intro row hrow
            rcases List.mem_cons.mp hrow with rfl | hrow
            · exact hgroup
            rcases List.mem_cons.mp hrow with rfl | hrow
            · trivial
            · exact hnext.formed row hrow
      | hostedSearch search =>
        have hsearch : item.isHostedSearch = true := by
          unfold TranscriptItem.isHostedSearch
          rw [hbody]
        exact (hleft _ _).cons rfl
          (takeGroup_group _ hsearch (fun g next => joinsSearches_spec) rest)
          (takeGroup_append _ [item] rest)
      | toolPreparing _ | notification _ | compaction _ => exact (hrest _).cons rfl trivial rfl

/-- The rows hold the transcript in order and once, images rows aside, which show the last tool of the
activity row before them; a tool or search row is of one page and within the limit. -/
theorem rows_transcript (items : List TranscriptItem) :
    Rows items (deriveConversationPresentationRows items) :=
  rowsFrom_rows _ _ _ _ (Nat.le_refl _)

/-! ## A tool that shows an image -/

def exampleId : String := "10000000-0000-4000-8000-000000000001"

/-- A completed `show_image` with one image. -/
def shownTool : TranscriptItem where
  key := ascii "tool:1"
  body := .tool {
    toolCallId := ascii "1"
    toolName := ascii "show_image"
    input := .null
    output := some (.obj [(ascii "content", .arr [.obj [
      (ascii "type", .str (ascii "image")),
      (ascii "imageId", .str (ascii exampleId)),
      (ascii "previewPath",
        .str (ascii ("/v1/sessions/" ++ exampleId ++ "/images/" ++ exampleId))),
      (ascii "mimeType", .str (ascii "image/png"))]])])
    status := .completed
    firstSequence := 1
    lastSequence := some 2
    startedAt := []
    completedAt := some [] }

/-- Its item stands in two rows, the activity and the images. -/
theorem shown_twice : ¬ ∀ items : List TranscriptItem,
    let rows := deriveConversationPresentationRows items
    rows.flatMap ConversationPresentationRow.items = items ∧
      (∀ row ∈ rows, row.items.length ≤ groupLimit) ∧
      ∀ row ∈ rows, row.ofPage → ∀ x ∈ row.items, ∀ y ∈ row.items, x.pageKey = y.pageKey := by
  intro h
  have htwo : ((deriveConversationPresentationRows [shownTool]).flatMap
      ConversationPresentationRow.items).length = 2 := by
    decide +kernel
  rw [(h [shownTool]).1] at htwo
  cases htwo

end Web
end PiCloud
