import PiCloud.Lib.History
import PiCloud.Lib.InsertionMap
import PiCloud.Lib.Utf16
import Mathlib.Data.List.Induction

/-!
# Supervisor.HostedSearches

The searches of a provider response: the activities that `ProviderResponse` announces for the hosted
search events of its provider.

* `ActivityId`, `Searches`: `#activityIds`, `#searches` and `#anonymous`, with what was announced.
* `idOf`, `start`, `complete`, `close`: `#id`, `#start`, `#complete` and the loop of `close`.
* `HostedEvent`, `observe`: the raw events of hosted searches.
* `Closed`, `Tracked`: that every activity has a whole life, and the condition for it.
* `Shaped`, `Ids`: what every event keeps.
-/

namespace PiCloud
namespace Supervisor
namespace Hosted

open Lib

/-- An item id, or the id `web-search-<uuid>-<n>` of the `n`-th activity that began without one. The
uuid is drawn for the response and not sent to its provider. -/
inductive ActivityId where
  | named (id : JsString)
  | anonymous (n : Nat)
deriving DecidableEq

inductive Outcome where
  | completed
  | failed
deriving DecidableEq

structure Search (Action : Type) where
  completed : Bool := false
  action : Option Action := none

/-- `ProviderHostedActivity` -/
inductive Activity (Action : Type) where
  | started (id : ActivityId)
  | completed (id : ActivityId) (outcome : Outcome) (action : Option Action)

namespace Activity

variable {Action : Type}

def id : Activity Action → ActivityId
  | .started id | .completed id _ _ => id

end Activity

structure Searches (Action : Type) where
  searches : InsertionMap ActivityId (Search Action) := {}
  activityIds : InsertionMap ActivityId ActivityId := {}
  anonymous : Option ActivityId := none
  anonymousCount : Nat := 0
  /-- what was announced so far -/
  emitted : List (Activity Action) := []

def usable (candidate : Option JsString) : Option ActivityId :=
  candidate.bind fun id => if 0 < id.length ∧ id.length ≤ 256 then some (.named id) else none

namespace Searches

variable {Action : Type} (s : Searches Action)

def pending : Option ActivityId :=
  s.anonymous.filter fun a => !(s.searches.get a).any (·.completed)

/-- `#id` -/
def idOf : Option ActivityId → ActivityId × Searches Action
  | some id =>
    match s.activityIds.get id with
    | some old => (old, s)
    | none =>
      match s.pending with
      | some a => (a, { s with activityIds := s.activityIds.set id a, anonymous := none })
      | none => (id, { s with activityIds := s.activityIds.set id id })
  | none =>
    match s.pending with
    | some a => (a, s)
    | none =>
      let a := .anonymous (s.anonymousCount + 1)
      (a, { s with anonymous := some a, anonymousCount := s.anonymousCount + 1 })

/-- `#start` -/
def start (candidate : Option ActivityId) : ActivityId × Searches Action :=
  let (id, s) := s.idOf candidate
  if (s.searches.get id).isSome then (id, s)
  else (id, { s with searches := s.searches.set id {}, emitted := s.emitted ++ [.started id] })

/-- `#complete` -/
def complete (candidate : Option ActivityId) (outcome : Outcome) (action : Option Action) :
    Searches Action :=
  let (id, s) := s.start candidate
  let prior := (s.searches.get id).getD {}
  if prior.completed && (action.isNone || prior.action.isSome) then s
  else
    { s with
      searches := s.searches.set id { completed := true, action }
      emitted := s.emitted ++ [.completed id outcome action] }

def running (id : ActivityId) : Bool := (s.searches.get id).any (!·.completed)

def keys : List ActivityId := s.searches.entries.map Prod.fst

/-- One turn of the loop of `close`. -/
def closeOne (outcome : Outcome) (s : Searches Action) (id : ActivityId) : Searches Action :=
  if s.running id then s.complete (some id) outcome none else s

/-- `close` -/
def close (outcome : Outcome) : Searches Action := s.keys.foldl (closeOne outcome) s

end Searches

/-! ## Events -/

/-- The status of an item, as `#observeItem` tells it apart. -/
inductive Status where
  | absent
  | completed
  | failed
  | other
deriving DecidableEq

/-- How an item of the status ended, if it did. -/
def Status.outcome : Status → Option Outcome
  | .absent | .completed => some .completed
  | .failed => some .failed
  | .other => none

inductive HostedEvent (Action : Type) where
  /-- `response.web_search_call.in_progress`, `.searching` and `.completed` -/
  | call (itemId : Option JsString)
  /-- `response.web_search_call.failed` -/
  | callFailed (itemId : Option JsString)
  /-- an item of `response.output_item.added`, or of `.done` and the output of a whole response -/
  | item (id : JsString) (done : Bool) (status : Status) (action : Option Action)

namespace Searches

variable {Action : Type}

def observe (s : Searches Action) : HostedEvent Action → Searches Action
  | .call itemId => (s.start (usable itemId)).2
  | .callFailed itemId => s.complete (usable itemId) .failed none
  | .item id done status action =>
    if id.length = 0 then s
    else
      let s := (s.start (usable (some id))).2
      match done, status.outcome with
      | true, some outcome => s.complete (usable (some id)) outcome action
      | _, _ => s

def run (es : List (HostedEvent Action)) : Searches Action := es.foldl observe {}

end Searches

/-! ## Whole lives -/

variable {Action : Type}

def history (id : ActivityId) (log : List (Activity Action)) : List (Activity Action) :=
  log.filter fun a => a.id = id

/-- All that is announced of an activity, from its start on. -/
inductive Lifecycle (id : ActivityId) : List (Activity Action) → Prop where
  | once (outcome : Outcome) (action : Option Action) :
      Lifecycle id [.started id, .completed id outcome action]
  | twice (outcome : Outcome) (action : Action) :
      Lifecycle id [.started id, .completed id outcome none, .completed id outcome (some action)]

def Closed (log : List (Activity Action)) : Prop :=
  ∀ id, history id log = [] ∨ Lifecycle id (history id log)

def Adds (s : Searches Action) (candidate : Option ActivityId) (outcome : Outcome) : Prop :=
  s.searches.get (s.idOf candidate).1 = some { completed := true } ∧
    ∃ outcome', outcome' ≠ outcome ∧ .completed (s.idOf candidate).1 outcome' none ∈ s.emitted

/-- The event is of an item that ended, with an action, otherwise than was announced. -/
def Contradicts (s : Searches Action) : HostedEvent Action → Prop
  | .item id done status action =>
    0 < id.length ∧ done = true ∧ action.isSome = true ∧ ∃ outcome, status.outcome = some outcome ∧
      Adds (s.start (usable (some id))).2 (usable (some id)) outcome
  | _ => False

/-- The condition: at the close the anonymous activity, where it is running, is the only one that began
without an id and is running, and no event before contradicts what was announced. -/
structure Tracked (es : List (HostedEvent Action)) : Prop where
  alone : ∀ a n, (Searches.run es).pending = some a → (Searches.run es).running (.anonymous n) = true →
    .anonymous n = a
  agreed : ∀ past e later, es = past ++ e :: later → ¬ Contradicts (Searches.run past) e

/-! ## Shapes -/

section Shapes

/-- The history of an activity, from its search; `R` relates the outcomes of two completions. -/
inductive Shape (R : Outcome → Outcome → Prop) (id : ActivityId) :
    Option (Search Action) → List (Activity Action) → Prop where
  | absent : Shape R id none []
  | running : Shape R id (some {}) [.started id]
  | completed (outcome : Outcome) (action : Option Action) :
      Shape R id (some { completed := true, action }) [.started id, .completed id outcome action]
  | again (outcome outcome' : Outcome) (action : Action) (h : R outcome outcome') :
      Shape R id (some { completed := true, action := some action })
        [.started id, .completed id outcome none, .completed id outcome' (some action)]

def Shaped (R : Outcome → Outcome → Prop) (s : Searches Action) : Prop :=
  ∀ id, Shape R id (s.searches.get id) (history id s.emitted)

variable {R : Outcome → Outcome → Prop} {s : Searches Action}

theorem history_self (id : ActivityId) (log : List (Activity Action)) {a : Activity Action}
    (h : a.id = id) : history id (log ++ [a]) = history id log ++ [a] := by
  unfold history
  rw [List.filter_append, List.filter_singleton, decide_eq_true h]
  rfl

theorem history_other {id : ActivityId} (log : List (Activity Action)) {a : Activity Action}
    (h : id ≠ a.id) : history id (log ++ [a]) = history id log := by
  unfold history
  rw [List.filter_append, List.filter_singleton, decide_eq_false (Ne.symm h)]
  exact List.append_nil _

theorem idOf_kept (s : Searches Action) (c : Option ActivityId) :
    (s.idOf c).2.searches = s.searches ∧ (s.idOf c).2.emitted = s.emitted := by
  unfold Searches.idOf
  split
  · split
    · exact ⟨rfl, rfl⟩
    · split <;> exact ⟨rfl, rfl⟩
  · split <;> exact ⟨rfl, rfl⟩

/-- What `start` does to the searches and to what was announced. -/
inductive Started (s : Searches Action) (id : ActivityId) (s' : Searches Action) : Prop where
  | known (h : s.searches.get id ≠ none) (hsearches : s'.searches = s.searches)
      (hemitted : s'.emitted = s.emitted)
  | fresh (h : s.searches.get id = none) (hsearches : s'.searches = s.searches.set id {})
      (hemitted : s'.emitted = s.emitted ++ [Activity.started id])

theorem start_started (s : Searches Action) (c : Option ActivityId) :
    (s.start c).1 = (s.idOf c).1 ∧ Started s (s.idOf c).1 (s.start c).2 := by
  obtain ⟨hsearches, hemitted⟩ := idOf_kept s c
  unfold Searches.start
  rcases hid : s.idOf c with ⟨id, t⟩
  rw [hid] at hsearches hemitted
  dsimp only at hsearches hemitted ⊢
  split
  · rename_i h
    refine ⟨rfl, .known (fun hnone => ?_) hsearches hemitted⟩
    rw [hsearches, hnone] at h
    cases h
  · rename_i h
    refine ⟨rfl, .fresh ?_ ?_ ?_⟩
    · rw [← hsearches]
      exact Option.not_isSome_iff_eq_none.mp h
    · rw [← hsearches]
    · rw [← hemitted]

theorem Started.shaped {id : ActivityId} {s' : Searches Action} (h : Started s id s') (hs : Shaped R s) :
    Shaped R s' := by
  cases h with
  | known _ hsearches hemitted =>
    intro j
    rw [hsearches, hemitted]
    exact hs j
  | fresh hnone hsearches hemitted =>
    intro j
    rw [hsearches, hemitted, InsertionMap.get_set]
    by_cases hj : j = id
    · subst hj
      rw [if_pos rfl, history_self j s.emitted (a := .started j) rfl]
      have hold := hs j
      rw [hnone] at hold
      generalize history j s.emitted = log at hold ⊢
      cases hold
      exact .running
    · rw [if_neg hj, history_other s.emitted (a := .started id) hj]
      exact hs j

theorem Started.get {id : ActivityId} {s' : Searches Action} (h : Started s id s') :
    s'.searches.get id = some ((s.searches.get id).getD {}) := by
  cases h with
  | known hid hsearches =>
    rw [hsearches]
    obtain ⟨found, hfound⟩ := Option.ne_none_iff_exists'.mp hid
    rw [hfound]
    rfl
  | fresh hnone hsearches =>
    rw [hsearches, InsertionMap.get_set_self, hnone]
    rfl

theorem shaped_completed {id : ActivityId} {prior : Search Action} (hs : Shaped R s)
    (hprior : s.searches.get id = some prior) (outcome : Outcome) (action : Option Action)
    (hopen : ¬ (prior.completed && (action.isNone || prior.action.isSome)) = true)
    (hR : prior.completed = true → ∀ outcome', .completed id outcome' none ∈ s.emitted → R outcome' outcome) :
    Shaped R { s with
      searches := s.searches.set id { completed := true, action }
      emitted := s.emitted ++ [.completed id outcome action] } := by
  intro j
  dsimp only
  rw [InsertionMap.get_set]
  by_cases hj : j = id
  · subst hj
    rw [if_pos rfl, history_self j s.emitted (a := .completed j outcome action) rfl]
    have hold := hs j
    have hin : ∀ a ∈ history j s.emitted, a ∈ s.emitted := fun a ha => (List.mem_filter.mp ha).1
    rw [hprior] at hold
    generalize history j s.emitted = log at hold hin ⊢
    cases hold with
    | running => exact .completed outcome action
    | completed outcome' action' =>
      cases action' with
      | some => exact absurd (by rw [Option.isSome_some, Bool.or_true]; rfl) hopen
      | none =>
        cases action with
        | none => exact absurd rfl hopen
        | some action =>
          exact .again outcome' outcome action (hR rfl outcome' (hin _ (List.mem_cons_of_mem _ List.mem_cons_self)))
    | again _ _ action' => exact absurd (by rw [Option.isSome_some, Bool.or_true]; rfl) hopen
  · rw [if_neg hj, history_other s.emitted (a := .completed id outcome action) hj]
    exact hs j

variable {outcome : Outcome} {action : Option Action}

theorem complete_shaped (hs : Shaped R s) (c : Option ActivityId)
    (hR : action.isSome = true → s.searches.get (s.idOf c).1 = some { completed := true } →
      ∀ outcome', .completed (s.idOf c).1 outcome' none ∈ s.emitted → R outcome' outcome) :
    Shaped R (s.complete c outcome action) := by
  obtain ⟨hid, hstarted⟩ := start_started s c
  have hget := hstarted.get
  unfold Searches.complete
  rcases hstart : s.start c with ⟨id, t⟩
  rw [hstart] at hid hstarted hget
  dsimp only at hid hstarted hget ⊢
  rw [← hid] at hstarted hget hR
  split
  · exact hstarted.shaped hs
  · rename_i hopen
    rw [hget, Option.getD_some] at hopen
    refine shaped_completed (hstarted.shaped hs) hget outcome action hopen ?_
    intro hcompleted outcome' hin
    -- it was completed before, and without an action
    cases hstarted with
    | fresh hnone =>
      rw [hnone] at hcompleted
      cases hcompleted
    | known hknown hsearches hemitted =>
      obtain ⟨prior, hprior⟩ := Option.ne_none_iff_exists'.mp hknown
      rw [hprior, Option.getD_some] at hopen hcompleted
      rw [hcompleted, Bool.true_and, Bool.or_eq_true, not_or] at hopen
      have hnone : prior = { completed := true } := by
        obtain ⟨completed, added⟩ := prior
        cases hcompleted
        cases added with
        | none => rfl
        | some => exact absurd rfl hopen.2
      refine hR ?_ (hnone ▸ hprior) outcome' (hemitted ▸ hin)
      cases action with
      | none => exact absurd rfl hopen.1
      | some => rfl

theorem start_shaped (hs : Shaped R s) (c : Option ActivityId) : Shaped R (s.start c).2 :=
  (start_started s c).2.shaped hs

theorem observe_shaped (hs : Shaped R s) (e : HostedEvent Action)
    (hR : ∀ outcome outcome', outcome' ≠ outcome → ¬ R outcome' outcome → ¬ Contradicts s e) (hrefl : ∀ o, R o o) :
    Shaped R (s.observe e) := by
  cases e with
  | call itemId => exact start_shaped hs _
  | callFailed itemId => exact complete_shaped hs _ nofun
  | item id done status action =>
    dsimp only [Searches.observe]
    split
    · exact hs
    · rename_i hid
      cases done with
      | false => exact start_shaped hs _
      | true =>
        cases hstatus : status.outcome with
        | none => exact start_shaped hs _
        | some outcome =>
          refine complete_shaped (start_shaped hs _) _ fun haction hget outcome' hin => ?_
          by_contra hnot
          have hne : outcome' ≠ outcome := fun heq => hnot (heq ▸ hrefl _)
          exact hR outcome outcome' hne hnot
            ⟨Nat.pos_of_ne_zero hid, rfl, haction, outcome, hstatus, hget, outcome', hne, hin⟩

end Shapes

/-! ## Ids -/

section Ids

def Numbered (a b : ActivityId) : Prop := ∀ n m, a = .anonymous n → b = .anonymous m → n < m

/-- What the ids of activities are, before the close. -/
structure Ids (s : Searches Action) : Prop where
  named : ∀ id, s.searches.get (.named id) ≠ none → s.activityIds.get (.named id) = some (.named id)
  known : ∀ k a, s.activityIds.get k = some a → s.searches.get a ≠ none
  plain : ∀ n, s.activityIds.get (.anonymous n) = none
  anonymous : ∀ a, s.anonymous = some a → a = .anonymous s.anonymousCount ∧ s.searches.get a ≠ none
  numbered : ∀ n, s.searches.get (.anonymous n) ≠ none → n ≤ s.anonymousCount
  sorted : s.keys.Pairwise Numbered

variable {s : Searches Action}

theorem mem_keys {id : ActivityId} : id ∈ s.keys ↔ s.searches.get id ≠ none := by
  unfold Searches.keys
  rw [Ne, InsertionMap.get_eq_none, not_not]

theorem pending_some {a : ActivityId} (h : s.pending = some a) :
    s.anonymous = some a ∧ ¬ (s.searches.get a).any (·.completed) = true := by
  unfold Searches.pending at h
  obtain ⟨hanonymous, hrunning⟩ := Option.filter_eq_some_iff.mp h
  refine ⟨hanonymous, fun hany => ?_⟩
  rw [hany] at hrunning
  cases hrunning

theorem get_set_ne_none {m : InsertionMap ActivityId (Search Action)} {k j : ActivityId}
    {v : Search Action} : (m.set k v).get j ≠ none ↔ j = k ∨ m.get j ≠ none := by
  rw [InsertionMap.get_set]
  split
  · simp [*]
  · simp [*]

theorem usable_named {candidate : Option JsString} {id : ActivityId} (h : usable candidate = some id) :
    ∃ name, id = .named name := by
  obtain ⟨name, -, hname⟩ := Option.bind_eq_some_iff.mp h
  split at hname
  · exact ⟨name, (Option.some.inj hname).symm⟩
  · cases hname

theorem ids_push (h : Ids s) {id : ActivityId} (hnone : s.searches.get id = none)
    {t : Searches Action} (hsearches : t.searches = s.searches.set id {})
    (hnamed : ∀ k, t.searches.get (.named k) ≠ none → t.activityIds.get (.named k) = some (.named k))
    (hknown : ∀ k a, t.activityIds.get k = some a → t.searches.get a ≠ none)
    (hplain : ∀ n, t.activityIds.get (.anonymous n) = none)
    (hanonymous : ∀ a, t.anonymous = some a → a = .anonymous t.anonymousCount ∧ t.searches.get a ≠ none)
    (hcount : s.anonymousCount ≤ t.anonymousCount)
    (hid : ∀ n, id = .anonymous n → s.anonymousCount < n ∧ n ≤ t.anonymousCount) : Ids t where
  named := hnamed
  known := hknown
  plain := hplain
  anonymous := hanonymous
  numbered n hn := by
    rw [hsearches, get_set_ne_none] at hn
    obtain hn | hn := hn
    · exact (hid n hn.symm).2
    · exact Nat.le_trans (h.numbered n hn) hcount
  sorted := by
    unfold Searches.keys
    rw [hsearches, InsertionMap.keys_set_of_none _ _ hnone]
    refine pairwise_snoc h.sorted fun a ha n m hn hm => ?_
    subst hn
    exact Nat.lt_of_le_of_lt (h.numbered n (mem_keys.mp ha)) (hid m hm).1

theorem ids_start (h : Ids s) {c : Option ActivityId} (hc : ∀ id, c = some id → ∃ name, id = .named name) :
    Ids (s.start c).2 := by
  unfold Searches.start Searches.idOf
  cases c with
  | some id =>
    obtain ⟨name, rfl⟩ := hc id rfl
    dsimp only
    cases hget : s.activityIds.get (.named name) with
    | some old =>
      dsimp only
      rw [if_pos (Option.isSome_iff_ne_none.mpr (h.known _ _ hget))]
      exact h
    | none =>
      have hnone : s.searches.get (.named name) = none := by
        by_contra hsome
        exact nomatch hget.symm.trans (h.named name hsome)
      dsimp only
      cases hpending : s.pending with
      | some a =>
        obtain ⟨hanonymous, -⟩ := pending_some hpending
        have ha := (h.anonymous a hanonymous).2
        dsimp only
        rw [if_pos (Option.isSome_iff_ne_none.mpr ha)]
        refine ⟨fun id hid => ?_, fun k b hk => ?_, fun n => ?_, by simp, h.numbered, h.sorted⟩
        · rw [InsertionMap.get_set_ne]
          · exact h.named id hid
          · intro heq
            cases heq
            exact hid hnone
        · rw [InsertionMap.get_set] at hk
          split at hk
          · cases hk
            exact ha
          · exact h.known k b hk
        · have hne : ActivityId.anonymous n ≠ .named name := by rintro ⟨⟩
          dsimp only
          rw [InsertionMap.get_set_ne _ _ hne]
          exact h.plain n
      | none =>
        dsimp only
        rw [if_neg (Option.not_isSome_iff_eq_none.mpr hnone)]
        dsimp only
        refine ids_push h hnone rfl (fun id hid => ?_) (fun k b hk => ?_) (fun n => ?_) (fun a ha => ?_)
          (Nat.le_refl _) (by simp)
        · rw [InsertionMap.get_set]
          split
          · rename_i heq
            rw [heq]
          · rename_i hne
            exact h.named id ((get_set_ne_none.mp hid).resolve_left hne)
        · rw [InsertionMap.get_set] at hk
          rw [get_set_ne_none]
          split at hk
          · cases hk
            exact .inl rfl
          · exact .inr (h.known k b hk)
        · have hne : ActivityId.anonymous n ≠ .named name := by rintro ⟨⟩
          rw [InsertionMap.get_set_ne _ _ hne]
          exact h.plain n
        · exact ⟨(h.anonymous a ha).1, get_set_ne_none.mpr (.inr (h.anonymous a ha).2)⟩
  | none =>
    dsimp only
    cases hpending : s.pending with
    | some a =>
      obtain ⟨hanonymous, -⟩ := pending_some hpending
      dsimp only
      rw [if_pos (Option.isSome_iff_ne_none.mpr (h.anonymous a hanonymous).2)]
      exact h
    | none =>
      have hnone : s.searches.get (.anonymous (s.anonymousCount + 1)) = none := by
        by_contra hsome
        exact Nat.not_succ_le_self _ (h.numbered _ hsome)
      dsimp only
      rw [if_neg (Option.not_isSome_iff_eq_none.mpr hnone)]
      dsimp only
      refine ids_push h hnone rfl (fun id hid => ?_) (fun k b hk => ?_) h.plain (fun a ha => ?_)
        (Nat.le_succ _) ?_
      · exact h.named id ((get_set_ne_none.mp hid).resolve_left (by rintro ⟨⟩))
      · exact get_set_ne_none.mpr (.inr (h.known k b hk))
      · cases ha
        exact ⟨rfl, get_set_ne_none.mpr (.inl rfl)⟩
      · rintro n hn
        cases hn
        exact ⟨Nat.lt_succ_self _, Nat.le_refl _⟩

theorem ids_update (h : Ids s) {id : ActivityId} (hid : s.searches.get id ≠ none) (v : Search Action)
    (log : List (Activity Action)) :
    Ids { s with searches := s.searches.set id v, emitted := log } where
  named k hk := by
    refine h.named k ((get_set_ne_none.mp hk).elim (fun heq => ?_) fun hk => hk)
    rw [heq]
    exact hid
  known k a hk := get_set_ne_none.mpr (.inr (h.known k a hk))
  plain := h.plain
  anonymous a ha := ⟨(h.anonymous a ha).1, get_set_ne_none.mpr (.inr (h.anonymous a ha).2)⟩
  numbered n hn := by
    refine h.numbered n ((get_set_ne_none.mp hn).elim (fun heq => ?_) fun hn => hn)
    rw [heq]
    exact hid
  sorted := by
    unfold Searches.keys
    rw [InsertionMap.keys_set_of_some _ _ hid]
    exact h.sorted

theorem ids_complete (h : Ids s) {c : Option ActivityId} (hc : ∀ id, c = some id → ∃ name, id = .named name)
    (outcome : Outcome) (action : Option Action) : Ids (s.complete c outcome action) := by
  have hids := ids_start h hc
  obtain ⟨hid, hstarted⟩ := start_started s c
  have hget := hstarted.get
  rw [← hid] at hget
  unfold Searches.complete
  rcases hstart : s.start c with ⟨id, t⟩
  rw [hstart] at hget hids
  dsimp only at hget hids ⊢
  split
  · exact hids
  · refine ids_update hids (fun hnone => ?_) _ _
    rw [hnone] at hget
    cases hget

theorem ids_observe (h : Ids s) (e : HostedEvent Action) : Ids (s.observe e) := by
  have hnamed : ∀ candidate id, usable candidate = some id → ∃ name, id = .named name :=
    fun _ _ => usable_named
  cases e with
  | call itemId => exact ids_start h (hnamed itemId)
  | callFailed itemId => exact ids_complete h (hnamed itemId) _ _
  | item id done status action =>
    dsimp only [Searches.observe]
    split
    · exact h
    · split
      · exact ids_complete (ids_start h (hnamed _)) (hnamed _) _ _
      · exact ids_start h (hnamed _)

theorem ids_empty : Ids ({} : Searches Action) where
  named _ h := absurd rfl h
  known _ _ h := nomatch h
  plain _ := rfl
  anonymous _ h := nomatch h
  numbered _ h := absurd rfl h
  sorted := List.Pairwise.nil

theorem ids_run (es : List (HostedEvent Action)) : Ids (Searches.run es) := by
  unfold Searches.run
  induction es using List.reverseRecOn with
  | nil => exact ids_empty
  | append_singleton es e ih =>
    rw [List.foldl_append]
    exact ids_observe ih e

end Ids

end Hosted
end Supervisor
end PiCloud
