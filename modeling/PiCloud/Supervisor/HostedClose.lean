import PiCloud.Supervisor.HostedSearches

/-!
# Supervisor.HostedClose

What the close of a provider response makes of the searches that are still running.

* `Turn`, `closeOne_turn`: one turn of the loop.
* `Alone`, `Behind`: the states that it completes, and those of which it leaves one search running.
* `closed_iff`: when every activity that was started has a whole life.
-/

namespace PiCloud
namespace Supervisor
namespace Hosted

open Lib

variable {Action : Type}

/-! ## The close -/

section Close

variable {s t t' : Searches Action} {k : ActivityId}

/-- How one turn of the loop completes a search that is running: itself, or the anonymous one that its id
is bound to. -/
inductive Turn (t : Searches Action) (k : ActivityId) (t' : Searches Action) : Prop where
  | itself (hsearches : t'.searches = t.searches.set k { completed := true })
      (hanonymous : t'.anonymous = t.anonymous)
      (hids : ∀ j a, t'.activityIds.get j = some a → t.activityIds.get j = some a ∨ j = k ∧ a = k)
      (hgrows : ∀ j, t'.activityIds.get j = none → t.activityIds.get j = none)
      (hwhy : t.activityIds.get k = some k ∨ t.pending = none)
  | other (a : ActivityId) (hk : t.activityIds.get k = none) (hpending : t.pending = some a)
      (hsearches : t'.searches = t.searches.set a { completed := true }) (hanonymous : t'.anonymous = none)
      (hids : ∀ j b, t'.activityIds.get j = some b → t.activityIds.get j = some b ∨ j = k ∧ b = a)

theorem closeOne_skip (outcome : Outcome) (h : t.running k = false) : Searches.closeOne outcome t k = t := by
  unfold Searches.closeOne
  rw [h]
  rfl

theorem get_of_running (h : t.running k = true) : ∃ found, t.searches.get k = some found ∧
    found.completed = false := by
  unfold Searches.running at h
  obtain ⟨found, hfound, hopen⟩ := (Option.any_eq_true _ _).mp h
  refine ⟨found, hfound, ?_⟩
  rwa [Bool.not_eq_true'] at hopen

theorem start_known {c : Option ActivityId} {id : ActivityId} (hid : t.idOf c = (id, t'))
    (h : t'.searches.get id ≠ none) : t.start c = (id, t') := by
  unfold Searches.start
  rw [hid]
  dsimp only
  rw [if_pos (Option.isSome_iff_ne_none.mpr h)]

theorem complete_open {c : Option ActivityId} {id : ActivityId} {found : Search Action}
    (hid : t.idOf c = (id, t')) (hfound : t'.searches.get id = some found) (hopen : found.completed = false)
    (outcome : Outcome) (action : Option Action) :
    t.complete c outcome action =
      { t' with
        searches := t'.searches.set id { completed := true, action }
        emitted := t'.emitted ++ [.completed id outcome action] } := by
  have hstart : t.start c = (id, t') := start_known hid fun hnone => by
    rw [hfound] at hnone
    cases hnone
  unfold Searches.complete
  rw [hstart]
  dsimp only
  rw [hfound, Option.getD_some, hopen]
  rfl

theorem closeOne_turn (outcome : Outcome) (h : t.running k = true)
    (hown : ∀ a, t.activityIds.get k = some a → a = k)
    (hanonymous : ∀ a, t.anonymous = some a → t.searches.get a ≠ none) :
    Turn t k (Searches.closeOne outcome t k) := by
  obtain ⟨found, hfound, hopen⟩ := get_of_running h
  unfold Searches.closeOne
  rw [if_pos h]
  cases hget : t.activityIds.get k with
  | some a =>
    obtain rfl := hown a hget
    have hid : t.idOf (some a) = (a, t) := by
      dsimp only [Searches.idOf]
      rw [hget]
    rw [complete_open hid hfound hopen]
    exact .itself rfl rfl (fun _ _ hj => .inl hj) (fun _ hj => hj) (.inl hget)
  | none =>
    cases hpending : t.pending with
    | some a =>
      have hid : t.idOf (some k) =
          (a, { t with activityIds := t.activityIds.set k a, anonymous := none }) := by
        dsimp only [Searches.idOf]
        rw [hget, hpending]
      obtain ⟨hsome, hrunning⟩ := pending_some hpending
      obtain ⟨prior, hprior⟩ := Option.ne_none_iff_exists'.mp (hanonymous a hsome)
      have hprior' : prior.completed = false := by
        rw [hprior, Option.any_some, Bool.not_eq_true] at hrunning
        exact hrunning
      rw [complete_open hid hprior hprior']
      refine .other a hget hpending rfl rfl fun j b hj => ?_
      dsimp only at hj
      rw [InsertionMap.get_set] at hj
      split at hj
      · exact .inr ⟨‹_›, (Option.some.inj hj).symm⟩
      · exact .inl hj
    | none =>
      have hid : t.idOf (some k) = (k, { t with activityIds := t.activityIds.set k k }) := by
        dsimp only [Searches.idOf]
        rw [hget, hpending]
      rw [complete_open hid hfound hopen]
      refine .itself rfl rfl (fun j a hj => ?_) (fun j hj => ?_) (.inr hpending)
      · dsimp only at hj
        rw [InsertionMap.get_set] at hj
        split at hj
        · exact .inr ⟨‹_›, (Option.some.inj hj).symm⟩
        · exact .inl hj
      · dsimp only at hj
        rw [InsertionMap.get_set] at hj
        split at hj
        · cases hj
        · exact hj

theorem running_set {j : ActivityId} (h : t'.searches = t.searches.set k { completed := true }) :
    t'.running j = true ↔ j ≠ k ∧ t.running j = true := by
  unfold Searches.running
  rw [h, InsertionMap.get_set]
  split
  · rename_i hj
    simp [hj]
  · rename_i hj
    simp [hj]

theorem get_of_set {j : ActivityId} {v : Search Action} (h : t'.searches = t.searches.set k v)
    (hj : t.searches.get j ≠ none) : t'.searches.get j ≠ none := by
  rw [h]
  exact get_set_ne_none.mpr (.inr hj)

theorem pending_of_set {a : ActivityId} (h : t'.searches = t.searches.set k { completed := true })
    (hanonymous : t'.anonymous = t.anonymous) (hp : t'.pending = some a) : t.pending = some a := by
  unfold Searches.pending at *
  rw [hanonymous, h] at hp
  obtain ⟨ha, hrunning⟩ := Option.filter_eq_some_iff.mp hp
  refine Option.filter_eq_some_iff.mpr ⟨ha, ?_⟩
  rw [InsertionMap.get_set] at hrunning
  split at hrunning
  · cases hrunning
  · exact hrunning

theorem pending_none_of (h : t.anonymous = none) : t.pending = none := by
  unfold Searches.pending
  rw [h]
  rfl

/-- No search that is running has been left by the anonymous one. -/
structure Alone (t : Searches Action) : Prop where
  own : ∀ k a, t.searches.get k ≠ none → t.activityIds.get k = some a → a = k
  anonymous : ∀ a, t.anonymous = some a → t.searches.get a ≠ none
  alone : ∀ a, t.pending = some a → ∀ k, t.running k = true → t.activityIds.get k = none → k = a

theorem searches_of_running (h : t.running k = true) : t.searches.get k ≠ none := by
  obtain ⟨found, hfound, -⟩ := get_of_running h
  rw [hfound]
  nofun

theorem Alone.turn (h : Alone t) (hk : t.running k = true) (hturn : Turn t k t') :
    Alone t' ∧ ∀ j, t'.running j = true ↔ j ≠ k ∧ t.running j = true := by
  have hknown := searches_of_running hk
  cases hturn with
  | itself hsearches hanonymous hids hgrows =>
    refine ⟨⟨fun j a hj hget => ?_, fun a ha => ?_, fun a ha j hj hget => ?_⟩, fun j => running_set hsearches⟩
    · rw [hsearches] at hj
      obtain hold | ⟨rfl, rfl⟩ := hids j a hget
      · refine h.own j a ((get_set_ne_none.mp hj).elim (fun heq => ?_) fun hj => hj) hold
        rw [heq]
        exact hknown
      · rfl
    · rw [hanonymous] at ha
      exact get_of_set hsearches (h.anonymous a ha)
    · have hpending := pending_of_set hsearches hanonymous ha
      exact h.alone a hpending j ((running_set hsearches).mp hj).2 (hgrows j hget)
  | other a hget hpending hsearches hanonymous hids =>
    obtain rfl := h.alone a hpending k hk hget
    refine ⟨⟨fun j b hj hget' => ?_, fun b hb => ?_, fun b hb => ?_⟩, fun j => running_set hsearches⟩
    · rw [hsearches] at hj
      obtain hold | ⟨rfl, rfl⟩ := hids j b hget'
      · refine h.own j b ((get_set_ne_none.mp hj).elim (fun heq => ?_) fun hj => hj) hold
        rw [heq]
        exact hknown
      · rfl
    · rw [hanonymous] at hb
      cases hb
    · rw [pending_none_of hanonymous] at hb
      cases hb

theorem Alone.closeAll (outcome : Outcome) (ks : List ActivityId) (h : Alone t) {j : ActivityId}
    (hj : (ks.foldl (Searches.closeOne outcome) t).running j = true) : j ∉ ks ∧ t.running j = true := by
  induction ks generalizing t with
  | nil => exact ⟨List.not_mem_nil, hj⟩
  | cons k ks ih =>
    rw [List.foldl_cons] at hj
    cases hk : t.running k with
    | false =>
      rw [closeOne_skip outcome hk] at hj
      obtain ⟨hmem, hrunning⟩ := ih h hj
      refine ⟨fun hin => ?_, hrunning⟩
      obtain rfl | hin := List.mem_cons.mp hin
      · rw [hk] at hrunning
        cases hrunning
      · exact hmem hin
    | true =>
      have hturn := closeOne_turn outcome hk (fun a => h.own k a (searches_of_running hk)) h.anonymous
      obtain ⟨h', hrunning'⟩ := h.turn hk hturn
      obtain ⟨hmem, hrunning⟩ := ih h' hj
      obtain ⟨hne, hrunning⟩ := (hrunning' j).mp hrunning
      refine ⟨fun hin => ?_, hrunning⟩
      obtain rfl | hin := List.mem_cons.mp hin
      · exact hne rfl
      · exact hmem hin

/-- A search that was left stays running: its id is bound to another one, and no other id to it. -/
structure Left (t : Searches Action) (k : ActivityId) : Prop where
  running : t.running k = true
  anonymous : t.anonymous = none
  own : ∀ j a, t.searches.get j ≠ none → j ≠ k → t.activityIds.get j = some a → a = j

theorem Left.closeAll (outcome : Outcome) (ks : List ActivityId) (h : Left t k) (hk : k ∉ ks) :
    (ks.foldl (Searches.closeOne outcome) t).running k = true := by
  induction ks generalizing t with
  | nil => exact h.running
  | cons j ks ih =>
    rw [List.mem_cons, not_or] at hk
    obtain ⟨hkj, hk⟩ := hk
    rw [List.foldl_cons]
    cases hj : t.running j with
    | false =>
      rw [closeOne_skip outcome hj]
      exact ih h hk
    | true =>
      have hknown := searches_of_running hj
      have hturn := closeOne_turn outcome hj (fun a => h.own j a hknown (Ne.symm hkj)) fun a ha => by
        rw [h.anonymous] at ha
        cases ha
      refine ih ?_ hk
      cases hturn with
      | itself hsearches hanonymous hids =>
        refine ⟨(running_set hsearches).mpr ⟨hkj, h.running⟩, hanonymous.trans h.anonymous, ?_⟩
        intro i a hi hik hget
        rw [hsearches] at hi
        obtain hold | ⟨rfl, rfl⟩ := hids i a hget
        · refine h.own i a ((get_set_ne_none.mp hi).elim (fun heq => ?_) fun hi => hi) hik hold
          rw [heq]
          exact hknown
        · rfl
      | other a _ hpending =>
        rw [pending_none_of h.anonymous] at hpending
        cases hpending

/-- The `n`-th anonymous search is running when the `m`-th is the one that waits for an id. -/
structure Behind (t : Searches Action) (ks : List ActivityId) (n m : Nat) : Prop where
  own : ∀ k a, t.searches.get k ≠ none → t.activityIds.get k = some a → a = k
  anonymous : ∀ a, t.anonymous = some a → t.searches.get a ≠ none
  pending : t.pending = some (.anonymous m)
  free : ∀ i, .anonymous i ∈ ks → t.activityIds.get (.anonymous i) = none
  mem : .anonymous n ∈ ks
  running : t.running (.anonymous n) = true
  lt : n < m

theorem Behind.closeAll (outcome : Outcome) {n m : Nat} (ks : List ActivityId) (hsorted : ks.Pairwise Numbered)
    (hnodup : ks.Nodup) (h : Behind t ks n m) :
    ∃ k, (ks.foldl (Searches.closeOne outcome) t).running k = true := by
  induction ks generalizing t with
  | nil => exact absurd h.mem List.not_mem_nil
  | cons k ks ih =>
    rw [List.foldl_cons]
    obtain ⟨hhead, hsorted⟩ := List.pairwise_cons.mp hsorted
    obtain ⟨hk, hnodup⟩ := List.nodup_cons.mp hnodup
    have hfree : ∀ i, .anonymous i ∈ ks → t.activityIds.get (.anonymous i) = none := fun i hi =>
      h.free i (List.mem_cons_of_mem k hi)
    cases hrunning : t.running k with
    | false =>
      rw [closeOne_skip outcome hrunning]
      refine ih hsorted hnodup { h with free := hfree, mem := ?_ }
      obtain heq | hmem := List.mem_cons.mp h.mem
      · rw [← heq, h.running] at hrunning
        cases hrunning
      · exact hmem
    | true =>
      have hknown := searches_of_running hrunning
      have hturn := closeOne_turn outcome hrunning (fun a => h.own k a hknown) h.anonymous
      cases hturn with
      | itself hsearches hanonymous hids hgrows hwhy =>
        -- the id is that of an item
        have hnamed : ∀ i, .anonymous i ≠ k := by
          rintro i rfl
          obtain hwhy | hwhy := hwhy
          · rw [h.free i List.mem_cons_self] at hwhy
            cases hwhy
          · rw [h.pending] at hwhy
            cases hwhy
        refine ih hsorted hnodup ⟨fun j a hj hget => ?_, fun a ha => ?_, ?_, fun i hi => ?_, ?_, ?_, h.lt⟩
        · rw [hsearches] at hj
          obtain hold | ⟨rfl, rfl⟩ := hids j a hget
          · refine h.own j a ((get_set_ne_none.mp hj).elim (fun heq => ?_) fun hj => hj) hold
            rw [heq]
            exact hknown
          · rfl
        · rw [hanonymous] at ha
          exact get_of_set hsearches (h.anonymous a ha)
        · have hpending := h.pending
          unfold Searches.pending at hpending ⊢
          rw [hanonymous, hsearches]
          obtain ⟨hsome, hopen⟩ := Option.filter_eq_some_iff.mp hpending
          refine Option.filter_eq_some_iff.mpr ⟨hsome, ?_⟩
          rwa [InsertionMap.get_set_ne _ _ (hnamed m)]
        · cases hget : (Searches.closeOne outcome t k).activityIds.get (.anonymous i) with
          | none => rfl
          | some a =>
            obtain hold | ⟨heq, -⟩ := hids _ a hget
            · rw [hfree i hi] at hold
              cases hold
            · exact absurd heq (hnamed i)
        · exact (List.mem_cons.mp h.mem).resolve_left (hnamed n)
        · exact (running_set hsearches).mpr ⟨hnamed n, h.running⟩
      | other a hget hpending hsearches hanonymous hids =>
        obtain rfl : .anonymous m = a := Option.some.inj (h.pending.symm.trans hpending)
        refine ⟨k, Left.closeAll outcome ks ⟨(running_set hsearches).mpr ⟨?_, hrunning⟩, hanonymous, ?_⟩ hk⟩
        · rintro rfl
          obtain heq | hmem := List.mem_cons.mp h.mem
          · cases heq
            exact Nat.lt_irrefl _ h.lt
          · exact Nat.lt_asymm h.lt (hhead _ hmem m n rfl rfl)
        · intro j b hj hjk hget'
          rw [hsearches] at hj
          obtain hold | ⟨heq, -⟩ := hids j b hget'
          · refine h.own j b ((get_set_ne_none.mp hj).elim (fun heq => ?_) fun hj => hj) hold
            rw [heq]
            exact h.anonymous _ (pending_some h.pending).1
          · exact absurd heq hjk

end Close

/-! ## Whole responses -/

section Responses

variable {R : Outcome → Outcome → Prop} {s : Searches Action}

theorem close_shaped (hs : Shaped R s) (outcome : Outcome) : Shaped R (s.close outcome) := by
  unfold Searches.close
  generalize s.keys = ks
  induction ks generalizing s with
  | nil => exact hs
  | cons k ks ih =>
    rw [List.foldl_cons]
    refine ih ?_
    unfold Searches.closeOne
    split
    · exact complete_shaped hs _ nofun
    · exact hs

theorem shaped_empty : Shaped R ({} : Searches Action) := fun _ => .absent

theorem run_append (es : List (HostedEvent Action)) (e : HostedEvent Action) :
    Searches.run (es ++ [e]) = (Searches.run es).observe e := by
  unfold Searches.run
  rw [List.foldl_append]
  rfl

theorem run_shaped (es : List (HostedEvent Action))
    (h : ∀ past e later, es = past ++ e :: later → ¬ Contradicts (Searches.run past) e) :
    Shaped Eq (Searches.run es) := by
  induction es using List.reverseRecOn with
  | nil => exact shaped_empty
  | append_singleton es e ih =>
    rw [run_append]
    refine observe_shaped (ih fun past e' later hes => ?_) e (fun _ _ _ _ => h es e [] rfl) fun _ => rfl
    refine h past e' (later ++ [e]) ?_
    rw [hes, List.append_assoc]
    rfl

theorem run_shaped_any (es : List (HostedEvent Action)) :
    Shaped (fun _ _ => True) (Searches.run es) := by
  induction es using List.reverseRecOn with
  | nil => exact shaped_empty
  | append_singleton es e ih =>
    rw [run_append]
    exact observe_shaped ih e (fun _ _ _ hnot => absurd trivial hnot) fun _ => trivial

/-! ### What was announced stays announced -/

theorem start_emitted (c : Option ActivityId) {a : Activity Action} (h : a ∈ s.emitted) :
    a ∈ (s.start c).2.emitted := by
  obtain ⟨-, hstarted⟩ := start_started s c
  cases hstarted with
  | known _ _ hemitted => rwa [hemitted]
  | fresh _ _ hemitted =>
    rw [hemitted]
    exact List.mem_append_left _ h

theorem complete_emitted (c : Option ActivityId) (outcome : Outcome) (action : Option Action)
    {a : Activity Action} (h : a ∈ s.emitted) : a ∈ (s.complete c outcome action).emitted := by
  have hin := start_emitted c h
  unfold Searches.complete
  rcases hstart : s.start c with ⟨id, t⟩
  rw [hstart] at hin
  dsimp only at hin ⊢
  split
  · exact hin
  · exact List.mem_append_left _ hin

theorem complete_adds {c : Option ActivityId} {o : Outcome} {a : Action}
    (h : s.searches.get (s.idOf c).1 = some { completed := true }) :
    .completed (s.idOf c).1 o (some a) ∈ (s.complete c o (some a)).emitted := by
  obtain ⟨hid, hstarted⟩ := start_started s c
  have hget := hstarted.get
  unfold Searches.complete
  rcases hstart : s.start c with ⟨id, t⟩
  rw [hstart] at hid hget
  dsimp only at hid hget ⊢
  rw [hid, hget, h]
  exact List.mem_append_right _ List.mem_cons_self

theorem observe_emitted (e : HostedEvent Action) {a : Activity Action} (h : a ∈ s.emitted) :
    a ∈ (s.observe e).emitted := by
  cases e with
  | call itemId => exact start_emitted _ h
  | callFailed itemId => exact complete_emitted _ _ _ h
  | item id done status action =>
    dsimp only [Searches.observe]
    split
    · exact h
    · split
      · exact complete_emitted _ _ _ (start_emitted _ h)
      · exact start_emitted _ h

theorem foldl_emitted (later : List (HostedEvent Action)) {a : Activity Action} (h : a ∈ s.emitted) :
    a ∈ (later.foldl Searches.observe s).emitted := by
  induction later generalizing s with
  | nil => exact h
  | cons e later ih => exact ih (observe_emitted e h)

theorem close_emitted (outcome : Outcome) {a : Activity Action} (h : a ∈ s.emitted) :
    a ∈ (s.close outcome).emitted := by
  unfold Searches.close
  generalize s.keys = ks
  induction ks generalizing s with
  | nil => exact h
  | cons k ks ih =>
    refine ih ?_
    unfold Searches.closeOne
    split
    · exact complete_emitted _ _ _ h
    · exact h

/-! ### The two directions -/

theorem alone_run {es : List (HostedEvent Action)} (h : Tracked es) : Alone (Searches.run es) := by
  have hids := ids_run es
  refine ⟨fun k a hk hget => ?_, fun a ha => (hids.anonymous a ha).2, fun a ha k hk hget => ?_⟩
  · cases k with
    | named name => exact Option.some.inj (hget.symm.trans (hids.named name hk))
    | anonymous n => exact nomatch (hids.plain n).symm.trans hget
  · cases k with
    | named name => exact nomatch hget.symm.trans (hids.named name (searches_of_running hk))
    | anonymous n => exact h.alone a n ha hk

theorem closed_of_tracked {es : List (HostedEvent Action)} (h : Tracked es) (outcome : Outcome) :
    Closed ((Searches.run es).close outcome).emitted := by
  intro id
  have hshape := close_shaped (run_shaped es h.agreed) outcome id
  have hrunning : ¬ ((Searches.run es).close outcome).running id = true := by
    intro hid
    obtain ⟨hmem, hrunning⟩ := (alone_run h).closeAll outcome _ hid
    exact hmem (mem_keys.mpr (searches_of_running hrunning))
  unfold Searches.running at hrunning
  generalize ((Searches.run es).close outcome).searches.get id = found at hshape hrunning
  generalize history id ((Searches.run es).close outcome).emitted = log at hshape ⊢
  cases hshape with
  | absent => exact .inl rfl
  | running => exact absurd rfl hrunning
  | completed outcome action => exact .inr (.once outcome action)
  | again outcome outcome' action heq =>
    cases heq
    exact .inr (.twice outcome action)

theorem not_running_of_closed (hs : Shaped R s) (h : Closed s.emitted) (k : ActivityId) :
    s.running k = false := by
  have hshape := hs k
  have hlife := h k
  unfold Searches.running
  generalize s.searches.get k = found at hshape ⊢
  generalize history k s.emitted = log at hshape hlife
  cases hshape with
  | absent => rfl
  | running =>
    obtain hnil | hlife := hlife
    · cases hnil
    · cases hlife
  | completed | again => rfl

theorem outcome_eq_of_closed {log : List (Activity Action)} (h : Closed log) {id : ActivityId}
    {outcome outcome' : Outcome} {action : Action} (h1 : .completed id outcome' none ∈ log)
    (h2 : .completed id outcome (some action) ∈ log) : outcome' = outcome := by
  have hin : ∀ a ∈ log, a.id = id → a ∈ history id log := fun a ha hid =>
    List.mem_filter.mpr ⟨ha, decide_eq_true hid⟩
  have h1 := hin _ h1 rfl
  have h2 := hin _ h2 rfl
  have hlife := h id
  generalize history id log = l at h1 h2 hlife
  obtain rfl | hlife := hlife
  · cases h1
  · cases hlife with
    | once o act =>
      -- there is one completion, with an action and without
      have h1 := List.mem_singleton.mp ((List.mem_cons.mp h1).resolve_left nofun)
      have h2 := List.mem_singleton.mp ((List.mem_cons.mp h2).resolve_left nofun)
      cases h1
      cases h2
    | twice o act =>
      have h1 := (List.mem_cons.mp h1).resolve_left nofun
      have h2 := (List.mem_cons.mp h2).resolve_left nofun
      have h1 := (List.mem_cons.mp h1).resolve_right fun hin => by
        cases List.mem_singleton.mp hin
      have h2 := List.mem_singleton.mp ((List.mem_cons.mp h2).resolve_left nofun)
      cases h1
      cases h2
      rfl

theorem tracked_of_closed {es : List (HostedEvent Action)} {outcome : Outcome}
    (h : Closed ((Searches.run es).close outcome).emitted) : Tracked es := by
  have hids := ids_run es
  constructor
  · intro a n ha hn
    obtain ⟨hsome, -⟩ := pending_some ha
    obtain ⟨rfl, hknown⟩ := hids.anonymous a hsome
    by_contra hne
    have hlt : n < (Searches.run es).anonymousCount :=
      Nat.lt_of_le_of_ne (hids.numbered n (searches_of_running hn)) fun heq => hne (by rw [heq])
    have hbehind : Behind (Searches.run es) (Searches.run es).keys n (Searches.run es).anonymousCount := by
      refine ⟨fun k b hk hget => ?_, fun b hb => (hids.anonymous b hb).2, ha, fun i _ => hids.plain i,
        mem_keys.mpr (searches_of_running hn), hn, hlt⟩
      cases k with
      | named name => exact Option.some.inj (hget.symm.trans (hids.named name hk))
      | anonymous i => exact nomatch (hids.plain i).symm.trans hget
    obtain ⟨k, hk⟩ := hbehind.closeAll outcome _ hids.sorted (Searches.run es).searches.nodup
    have hshaped := close_shaped (run_shaped_any es) outcome
    exact nomatch hk.symm.trans (not_running_of_closed hshaped h k)
  · rintro past e later rfl hcontradicts
    cases e with
    | call => exact hcontradicts
    | callFailed => exact hcontradicts
    | item id done status action =>
      obtain ⟨hid, rfl, haction, o, hstatus, hget, o', hne, hin⟩ := hcontradicts
      obtain ⟨act, rfl⟩ := Option.isSome_iff_exists.mp haction
      have hobserve : (Searches.run past).observe (.item id true status (some act)) =
          ((Searches.run past).start (usable (some id))).2.complete (usable (some id)) o (some act) := by
        dsimp only [Searches.observe]
        rw [if_neg (Nat.ne_of_gt hid), hstatus]
      have hadded := complete_adds (o := o) (a := act) hget
      have hkept : ∀ a ∈ ((Searches.run past).observe (.item id true status (some act))).emitted,
          a ∈ ((Searches.run (past ++ .item id true status (some act) :: later)).close outcome).emitted := by
        intro a ha
        refine close_emitted outcome ?_
        unfold Searches.run
        rw [List.foldl_append]
        exact foldl_emitted later ha
      rw [hobserve] at hkept
      exact hne (outcome_eq_of_closed h (hkept _ (complete_emitted _ _ _ hin)) (hkept _ hadded))

/-- Every activity that is started is completed at the close, as it should be, exactly where the condition
holds. -/
theorem closed_iff (es : List (HostedEvent Action)) (outcome : Outcome) :
    Closed ((Searches.run es).close outcome).emitted ↔ Tracked es :=
  ⟨tracked_of_closed, fun h => closed_of_tracked h outcome⟩

/-- An anonymous search is bound to an item and another one begins; the close completes the second for the
first, and then passes over it. -/
def forgottenSearch : List (HostedEvent Unit) := [.call none, .item [120] false .absent none, .call none]

theorem forgottenSearch_not_closed :
    ¬ Closed ((Searches.run forgottenSearch).close .completed).emitted := by
  intro h
  have hlog : ((Searches.run forgottenSearch).close .completed).emitted =
      [.started (.anonymous 1), .started (.anonymous 2), .completed (.anonymous 2) .completed none] := rfl
  rw [hlog] at h
  obtain hnil | hlife := h (.anonymous 1)
  · cases hnil
  · cases hlife

end Responses

end Hosted
end Supervisor
end PiCloud
