import PiCloud.Runtime.RunObservations

/-!
# Runtime.ObservationOrder

What holds of the reported observations in every run of `RunObservations`.

* `HubCall.Ordered`: two observations of one entry, of one type, are in the order of their positions.
* `RunObservations.Sound`: the index, the entries and the counters against the calls made so far.
* `Advances`: what every call that closes no run does.
* `step_spec`: one call of the component, `later_spec`: all later ones.
-/

namespace PiCloud
namespace Runtime

open Lib Protocol

/-- Of one entry the later call is of the same run and generation, and newer where it is of one type. -/
def HubCall.Ordered : HubCall → HubCall → Prop
  | .publishObservation _ o n _, .publishObservation _ o' n' _ =>
    n = n' → o.runId = o'.runId ∧ o.generation = o'.generation ∧
      (o.key.type = o'.key.type → o.position < o'.position)
  | _, _ => True

def Active.counter (a : Active) (type : Nat) : Nat :=
  if type = 1 then a.executionRevision else if type = 3 then a.pathAt else a.revision

namespace RunObservations

structure Sound (o : RunObservations) : Prop where
  keyed : ∀ {key a}, o.runs.get key = some a → observationKey a.scope = key
  indexed : InsertionMap.Indexes o.families o.runs Active.writerId
  numbered : ∀ {key a}, o.runs.get key = some a → a.admission < o.admissions
  unique : ∀ {j k a b}, o.runs.get j = some a → o.runs.get k = some b →
    a.admission = b.admission → j = k
  made : ∀ {tenant observation n writer},
    HubCall.publishObservation tenant observation n writer ∈ o.hub → n < o.admissions
  /-- an entry is ahead of what was published of it -/
  ahead : ∀ {tenant observation n writer key a},
    HubCall.publishObservation tenant observation n writer ∈ o.hub → o.runs.get key = some a →
    a.admission = n → observation.runId = a.scope.runId ∧
      observation.generation = a.scope.fencingToken ∧
      observation.position ≤ a.counter observation.key.type
  ordered : o.hub.Pairwise HubCall.Ordered
  active : ∀ {key a}, o.runs.get key = some a → a.writerId ∉ o.sealed ∧ a.writerId ∉ o.finished

theorem sound_start : Sound {} where
  keyed h := by cases h
  indexed := .empty
  numbered h := by cases h
  unique h := by cases h
  made h := by cases h
  ahead h := by cases h
  ordered := .nil
  active h := by cases h

variable {o o' o'' : RunObservations}

/-! ## One entry -/

theorem Sound.put (h : o.Sound) {key : JsString} {a b : Active} (ha : o.runs.get key = some a)
    (hscope : b.scope = a.scope) (hadmission : b.admission = a.admission)
    (hcounter : ∀ type, a.counter type ≤ b.counter type) : (o.put key b).Sound := by
  have hget : ∀ {j c}, (o.put key b).runs.get j = some c → ∃ d, o.runs.get j = some d ∧
      c.scope = d.scope ∧ c.admission = d.admission ∧ ∀ type, d.counter type ≤ c.counter type := by
    intro j c hc
    unfold RunObservations.put at hc
    rw [InsertionMap.get_set] at hc
    split at hc
    · rename_i hj
      cases hc
      exact ⟨a, hj ▸ ha, hscope, hadmission, hcounter⟩
    · exact ⟨c, hc, rfl, rfl, fun _ => Nat.le_refl _⟩
  refine ⟨?_, h.indexed.update ha (congrArg (fun s => s.writerId) hscope), ?_, ?_, h.made, ?_, h.ordered, ?_⟩
  · intro j c hc
    obtain ⟨d, hd, hs, -⟩ := hget hc
    rw [hs]
    exact h.keyed hd
  · intro j c hc
    obtain ⟨d, hd, -, hn, -⟩ := hget hc
    rw [hn]
    exact h.numbered hd
  · intro j k c d hc hd hcd
    obtain ⟨c', hc', -, hnc, -⟩ := hget hc
    obtain ⟨d', hd', -, hnd, -⟩ := hget hd
    exact h.unique hc' hd' (hnc.symm.trans (hcd.trans hnd))
  · intro tenant observation n writer j c hcall hc hn
    obtain ⟨d, hd, hs, hnd, hle⟩ := hget hc
    obtain ⟨hrun, hgen, hpos⟩ := h.ahead hcall hd (hnd.symm.trans hn)
    rw [hs]
    exact ⟨hrun, hgen, Nat.le_trans hpos (hle _)⟩
  · intro j c hc
    obtain ⟨d, hd, hs, -⟩ := hget hc
    unfold Active.writerId
    rw [hs]
    exact h.active hd

theorem Sound.publish (h : o.Sound) {a : Active} {sessionId turnId : JsString}
    {body : RunObservationBody} (hn : a.admission < o.admissions)
    (hnewer : ∀ tenant observation writer,
      HubCall.publishObservation tenant observation a.admission writer ∈ o.hub →
      observation.runId = a.scope.runId ∧ observation.generation = a.scope.fencingToken ∧
      (observation.key.type = (a.observation sessionId turnId body).key.type →
        observation.position < (a.observation sessionId turnId body).position))
    (hentry : ∀ key b, o.runs.get key = some b → b.admission = a.admission → b.scope = a.scope ∧
      (a.observation sessionId turnId body).position ≤
        b.counter (a.observation sessionId turnId body).key.type) :
    (o.publish a sessionId turnId body).Sound := by
  refine ⟨h.keyed, h.indexed, h.numbered, h.unique, ?_, ?_, ?_, h.active⟩
  · intro tenant observation n writer hcall
    obtain hcall | hcall := List.mem_append.mp hcall
    · exact h.made hcall
    · cases List.mem_singleton.mp hcall
      exact hn
  · intro tenant observation n writer key b hcall hb hbn
    obtain hcall | hcall := List.mem_append.mp hcall
    · exact h.ahead hcall hb hbn
    · cases List.mem_singleton.mp hcall
      obtain ⟨hscope, hpos⟩ := hentry key b hb hbn
      rw [hscope]
      exact ⟨rfl, rfl, hpos⟩
  · refine List.pairwise_append.mpr ⟨h.ordered, List.pairwise_singleton .., ?_⟩
    intro c hc d hd
    cases List.mem_singleton.mp hd
    cases c with
    | resyncSession => trivial
    | publishObservation tenant observation n writer =>
      rintro rfl
      exact hnewer tenant observation writer hc

theorem Sound.report (h : o.Sound) {key sessionId turnId : JsString} {a b : Active}
    {body : RunObservationBody} (ha : o.runs.get key = some a) (hscope : b.scope = a.scope)
    (hadmission : b.admission = a.admission) (hcounter : ∀ type, a.counter type ≤ b.counter type)
    (hlow : a.counter (b.observation sessionId turnId body).key.type <
      (b.observation sessionId turnId body).position)
    (hhigh : (b.observation sessionId turnId body).position ≤
      b.counter (b.observation sessionId turnId body).key.type) :
    ((o.put key b).publish b sessionId turnId body).Sound := by
  have hput := h.put ha hscope hadmission hcounter
  have hb : (o.put key b).runs.get key = some b := InsertionMap.get_set_self ..
  refine hput.publish (hput.numbered hb) ?_ ?_
  · intro tenant observation writer hcall
    obtain ⟨hrun, hgen, hpos⟩ := h.ahead hcall ha hadmission.symm
    rw [hscope]
    refine ⟨hrun, hgen, fun htype => ?_⟩
    rw [htype] at hpos
    exact Nat.lt_of_le_of_lt hpos hlow
  · intro j c hc hcb
    cases hput.unique hc hb hcb
    rw [hb] at hc
    cases hc
    exact ⟨rfl, hhigh⟩

theorem Sound.remove (h : o.Sound) (id : JsString) (resync : Bool) : (o.remove id resync).Sound := by
  unfold RunObservations.remove
  cases ha : o.runs.get id with
  | none => exact h
  | some a =>
    have hcalls : ∀ {c}, c ∈ o.hub ++ resyncOf resync a →
        c ∈ o.hub ∨ ∃ tenant session, c = .resyncSession tenant session := by
      intro c hc
      refine (List.mem_append.mp hc).imp_right fun hc => ?_
      unfold resyncOf at hc
      split at hc
      · exact ⟨_, _, List.mem_singleton.mp hc⟩
      · cases hc
    refine ⟨?_, h.indexed.delete ha, ?_, ?_, ?_, ?_, ?_, ?_⟩
    · exact fun hb => h.keyed (InsertionMap.get_delete_some hb)
    · exact fun hb => h.numbered (InsertionMap.get_delete_some hb)
    · exact fun hb hc => h.unique (InsertionMap.get_delete_some hb) (InsertionMap.get_delete_some hc)
    · intro tenant observation n writer hcall
      obtain hcall | ⟨_, _, heq⟩ := hcalls hcall
      · exact h.made hcall
      · cases heq
    · intro tenant observation n writer key b hcall hb
      obtain hcall | ⟨_, _, heq⟩ := hcalls hcall
      · exact h.ahead hcall (InsertionMap.get_delete_some hb)
      · cases heq
    · refine List.pairwise_append.mpr ⟨h.ordered, ?_, ?_⟩
      · unfold resyncOf
        split
        · exact List.pairwise_singleton ..
        · exact .nil
      · intro c _ d hd
        unfold resyncOf at hd
        split at hd
        · cases List.mem_singleton.mp hd
          cases c <;> trivial
        · cases hd
    · exact fun hb => h.active (InsertionMap.get_delete_some hb)

theorem get_remove (id : JsString) (resync : Bool) (key : JsString) :
    (o.remove id resync).runs.get key = if key = id then none else o.runs.get key := by
  unfold RunObservations.remove
  cases ha : o.runs.get id with
  | none =>
    dsimp only
    split
    · rename_i hkey
      rw [hkey, ha]
    · rfl
  | some a => exact InsertionMap.get_delete ..

/-! ## Calls that close no run -/

/-- The calls made from one state to a later one: an entry stays, or its session is read anew. -/
structure Follows (o o' : RunObservations) (calls : List HubCall) : Prop where
  hub : o'.hub = o.hub ++ calls
  kept : ∀ {key a}, o.runs.get key = some a →
    (∃ b, o'.runs.get key = some b ∧ b.scope = a.scope ∧ b.admission = a.admission) ∨
      HubCall.resyncSession a.scope.tenantId a.scope.sessionId ∈ calls
  writers : ∀ {tenant observation n writer},
    HubCall.publishObservation tenant observation n writer ∈ calls →
    writer ∉ o.sealed ∧ writer ∉ o.finished
  sealed : o'.sealed = o.sealed
  finished : o'.finished = o.finished

theorem Follows.refl (o : RunObservations) : Follows o o [] where
  hub := (List.append_nil _).symm
  kept h := .inl ⟨_, h, rfl, rfl⟩
  writers h := by cases h
  sealed := rfl
  finished := rfl

theorem Follows.trans {calls calls' : List HubCall} (h : Follows o o' calls)
    (h' : Follows o' o'' calls') : Follows o o'' (calls ++ calls') where
  hub := by rw [h'.hub, h.hub, List.append_assoc]
  kept ha := by
    obtain ⟨b, hb, hscope, hadmission⟩ | hresync := h.kept ha
    · refine (h'.kept hb).imp ?_ fun hresync => ?_
      · rintro ⟨c, hc, hscope', hadmission'⟩
        exact ⟨c, hc, hscope'.trans hscope, hadmission'.trans hadmission⟩
      · rw [hscope] at hresync
        exact List.mem_append_right _ hresync
    · exact .inr (List.mem_append_left _ hresync)
  writers hcall := by
    obtain hcall | hcall := List.mem_append.mp hcall
    · exact h.writers hcall
    · have := h'.writers hcall
      rwa [h.sealed, h.finished] at this
  sealed := h'.sealed.trans h.sealed
  finished := h'.finished.trans h.finished

def Advances (o o' : RunObservations) : Prop := o.Sound → o'.Sound ∧ ∃ calls, Follows o o' calls

theorem Advances.refl (o : RunObservations) : Advances o o := fun h => ⟨h, [], .refl o⟩

theorem Advances.trans (h : Advances o o') (h' : Advances o' o'') : Advances o o'' := by
  intro hsound
  obtain ⟨hsound', calls, hcalls⟩ := h hsound
  obtain ⟨hsound'', calls', hcalls'⟩ := h' hsound'
  exact ⟨hsound'', _, hcalls.trans hcalls'⟩

theorem Advances.foldl {β : Type} {f : RunObservations → β → RunObservations}
    (hf : ∀ o x, Advances o (f o x)) (xs : List β) (o : RunObservations) :
    Advances o (xs.foldl f o) := by
  induction xs generalizing o with
  | nil => exact .refl o
  | cons x xs ih => exact (hf o x).trans (ih (f o x))

theorem follows_put {key : JsString} {a b : Active} (ha : o.runs.get key = some a)
    (hscope : b.scope = a.scope) (hadmission : b.admission = a.admission) :
    Follows o (o.put key b) [] where
  hub := (List.append_nil _).symm
  kept {j c} hc := by
    refine .inl ?_
    unfold RunObservations.put
    dsimp only
    rw [InsertionMap.get_set]
    split
    · rename_i hj
      rw [hj, ha] at hc
      cases hc
      exact ⟨b, rfl, hscope, hadmission⟩
    · exact ⟨c, hc, rfl, rfl⟩
  writers h := by cases h
  sealed := rfl
  finished := rfl

theorem follows_publish {a : Active} (sessionId turnId : JsString) (body : RunObservationBody)
    (hactive : a.writerId ∉ o.sealed ∧ a.writerId ∉ o.finished) :
    ∃ calls, Follows o (o.publish a sessionId turnId body) calls := by
  refine ⟨_, rfl, fun h => .inl ⟨_, h, rfl, rfl⟩, ?_, rfl, rfl⟩
  intro tenant observation n writer hcall
  cases List.mem_singleton.mp hcall
  exact hactive

theorem advances_report {key : JsString} {a b : Active} (sessionId turnId : JsString)
    (body : RunObservationBody) (ha : o.runs.get key = some a) (hscope : b.scope = a.scope) (hadmission : b.admission = a.admission)
    (hcounter : ∀ type, a.counter type ≤ b.counter type)
    (hlow : a.counter (b.observation sessionId turnId body).key.type <
      (b.observation sessionId turnId body).position)
    (hhigh : (b.observation sessionId turnId body).position ≤
      b.counter (b.observation sessionId turnId body).key.type) :
    Advances o ((o.put key b).publish b sessionId turnId body) := by
  intro h
  refine ⟨h.report ha hscope hadmission hcounter hlow hhigh, ?_⟩
  have hput := follows_put ha hscope hadmission
  have hactive : b.writerId ∉ (o.put key b).sealed ∧ b.writerId ∉ (o.put key b).finished := by
    unfold Active.writerId
    rw [hscope]
    exact h.active ha
  obtain ⟨calls, hcalls⟩ := follows_publish sessionId turnId body hactive
  exact ⟨_, hput.trans hcalls⟩

theorem advances_remove (id : JsString) : Advances o (o.remove id true) := by
  intro h
  refine ⟨h.remove id true, ?_⟩
  cases ha : o.runs.get id with
  | none =>
    unfold RunObservations.remove
    rw [ha]
    exact ⟨[], .refl o⟩
  | some a =>
    refine ⟨resyncOf true a, ?_, ?_, ?_, ?_, ?_⟩
    · unfold RunObservations.remove
      rw [ha]
    · intro key b hb
      rw [get_remove]
      split
      · rename_i hkey
        rw [hkey, ha] at hb
        cases hb
        exact .inr (List.mem_singleton_self _)
      · exact .inl ⟨b, hb, rfl, rfl⟩
    · intro tenant observation n writer hcall
      cases List.mem_singleton.mp hcall
    all_goals
      unfold RunObservations.remove
      rw [ha]

/-! ## Activity -/

theorem childActivity_cases (a : Active) (revision observedAt lastActivityAt : Nat) (phase : RunPhase)
    (state : ChildState) :
    o.childActivity a revision observedAt lastActivityAt phase state = o ∨
      ∃ sessionId turnId toolCallId,
        o.childActivity a revision observedAt lastActivityAt phase state =
          o.publish a sessionId turnId (.childActivity state a.scope.sessionId a.scope.turnId toolCallId
            revision observedAt lastActivityAt phase) := by
  unfold childActivity
  split
  · exact .inl rfl
  · split
    · exact .inl rfl
    · split
      · exact .inl rfl
      · split
        · exact .inl rfl
        · exact .inr ⟨_, _, _, rfl⟩

theorem advances_activity (delivery : RunActivityDelivery) (now : Nat) :
    Advances o (o.activity delivery now) := by
  unfold activity
  cases ha : o.runs.get (observationKey delivery.scope) with
  | none => exact .refl o
  | some a =>
    dsimp only
    split
    · exact .refl o
    · rename_i hguard
      have hrevision : a.revision < delivery.revision := by
        by_contra hle
        exact hguard (.inr (.inr (.inl (Nat.le_of_not_lt hle))))
      set b : Active := { a with
        revision := delivery.revision
        activityAt := delivery.lastActivityAt
        touched := now
        parent := delivery.parent.or a.parent } with hb
      have hcounter : ∀ type, a.counter type ≤ b.counter type := by
        intro type
        unfold Active.counter
        split
        · exact Nat.le_refl _
        · split
          · exact Nat.le_refl _
          · exact Nat.le_of_lt hrevision
      intro h
      obtain ⟨hsound, calls, hfollows⟩ := advances_report (b := b) b.scope.sessionId
        b.scope.turnId (.activity delivery.revision delivery.observedAt delivery.lastActivityAt
          delivery.phase) ha rfl rfl hcounter hrevision (Nat.le_refl _) h
      obtain hnone | ⟨sessionId, turnId, toolCallId, hchild⟩ := childActivity_cases
        (o := (o.put (observationKey delivery.scope) b).publish b b.scope.sessionId b.scope.turnId
          (.activity delivery.revision delivery.observedAt delivery.lastActivityAt delivery.phase))
        b delivery.revision delivery.observedAt delivery.lastActivityAt delivery.phase .running
      · rw [hnone]
        exact ⟨hsound, calls, hfollows⟩
      rw [hchild]
      have hget : ((o.put (observationKey delivery.scope) b).publish b b.scope.sessionId b.scope.turnId
          (.activity delivery.revision delivery.observedAt delivery.lastActivityAt
            delivery.phase)).runs.get (observationKey delivery.scope) = some b :=
        InsertionMap.get_set_self ..
      constructor
      · refine hsound.publish (hsound.numbered hget) ?_ ?_
        · intro tenant observation writer hcall
          obtain hcall | hcall := List.mem_append.mp hcall
          · obtain ⟨hrun, hgen, hpos⟩ := h.ahead hcall ha rfl
            refine ⟨hrun, hgen, fun htype => ?_⟩
            rw [htype] at hpos
            exact Nat.lt_of_le_of_lt hpos hrevision
          · cases List.mem_singleton.mp hcall
            exact ⟨rfl, rfl, fun htype => by cases htype⟩
        · intro key c hc hcb
          cases hsound.unique hc hget hcb
          rw [hget] at hc
          cases hc
          exact ⟨rfl, Nat.le_refl _⟩
      · obtain ⟨calls', hcalls'⟩ := follows_publish sessionId turnId (.childActivity .running
          b.scope.sessionId b.scope.turnId toolCallId delivery.revision delivery.observedAt
          delivery.lastActivityAt delivery.phase) (hsound.active hget)
        exact ⟨_, hfollows.trans hcalls'⟩

/-! ## The path to a VM -/

theorem advances_execution (scope : RuntimeObservationScope) (value : ExecutionPathStatus) (now : Nat) :
    Advances o (o.execution scope value now) := by
  unfold execution
  cases ha : o.runs.get (observationKey scope) with
  | none => exact .refl o
  | some a =>
    dsimp only
    split
    · exact .refl o
    · split
      · exact .refl o
      · refine advances_report _ _ _ ha rfl rfl ?_ (Nat.lt_succ_self _) (Nat.le_refl _)
        intro type
        unfold Active.counter
        split
        · exact Nat.le_succ _
        · exact Nat.le_refl _

theorem advances_executionTarget (bindings : List ProbeBinding) (sentAt : Int) (key : JsString)
    (now : Nat) : Advances o (o.executionTarget bindings sentAt key now) := by
  unfold executionTarget
  split
  · exact .refl o
  · split
    · exact advances_execution _ _ now
    · split
      · exact advances_execution _ _ now
      · exact .refl o

theorem advances_executionTargets (writerId : JsString) (bindings : List ProbeBinding) (sentAt : Int)
    (clock : Nat → Nat) : Advances o (o.executionTargets writerId bindings sentAt clock) := by
  unfold executionTargets
  refine .foldl ?_ _ o
  intro o e
  exact advances_executionTarget bindings sentAt e.1 (clock e.2)

theorem advances_path (sentAt : Int) (now : Nat) (key : JsString) :
    Advances o (o.path sentAt now key) := by
  unfold path
  cases ha : o.runs.get key with
  | none => exact .refl o
  | some a =>
    dsimp only
    split
    · exact .refl o
    · rename_i hnew
      split
      · exact .refl o
      · have hlt : a.pathAt < sentAt.toNat := by omega
        refine advances_report _ _ _ ha rfl rfl ?_ hlt (Nat.le_refl _)
        intro type
        unfold Active.counter
        split
        · exact Nat.le_refl _
        · split
          · exact Nat.le_of_lt hlt
          · exact Nat.le_refl _

theorem advances_paths (writerId : JsString) (sentAt : Int) (now : Nat) :
    Advances o (o.paths writerId sentAt now) :=
  .foldl (fun _ key => advances_path sentAt now key) _ o

/-! ## Open records -/

theorem advances_readTo (partition offset : Nat) : Advances o (o.readTo partition offset) := by
  intro h
  refine ⟨⟨h.keyed, h.indexed, h.numbered, h.unique, h.made, h.ahead, h.ordered, h.active⟩, [], ?_⟩
  exact ⟨(List.append_nil _).symm, fun h => .inl ⟨_, h, rfl, rfl⟩, (nomatch ·), rfl, rfl⟩

theorem advances_observe {record : ObservedRecord} {a : Active} {touched now : Nat}
    (ha : o.runs.get (observationKey record.scope) = some a) :
    Advances o (o.observe record a touched now) := by
  have hput : Advances o (o.put (observationKey record.scope) { a with touched }) := fun h =>
    ⟨h.put ha rfl rfl fun _ => Nat.le_refl _, [], follows_put ha rfl rfl⟩
  unfold observe
  dsimp only
  split
  · exact hput
  · refine hput.trans ((advances_readTo record.partition record.offset).trans ?_)
    split
    · exact .refl _
    · split
      · exact advances_paths _ _ now
      · exact .refl _

theorem advances_sweepOne (e : JsString × Active) (now : Nat) : Advances o (o.sweepOne e now) := by
  unfold sweepOne
  split
  · exact advances_remove e.1
  · exact .refl o

theorem advances_sweep (clock : Nat → Nat) : Advances o (o.sweep clock) := by
  unfold sweep
  refine .foldl ?_ _ o
  intro o e
  exact advances_sweepOne e.1 (clock e.2)

/-! ## Records -/

theorem advances_admitRun {record : ObservedRecord} {touched : Nat}
    (hnone : o.runs.get (observationKey record.scope) = none)
    (hactive : record.scope.writerId ∉ o.sealed ∧ record.scope.writerId ∉ o.finished) :
    Advances o (o.admitRun record touched) := by
  set entry : Active :=
    { scope := record.scope, partition := record.partition, touched, admission := o.admissions }
    with hentry
  set key := observationKey record.scope with hkey
  have hadmit : Advances o { o with
      runs := o.runs.set key entry
      families := o.families.join record.scope.writerId key
      admissions := o.admissions + 1 } := by
    intro h
    have hget : ∀ {j c}, (o.runs.set key entry).get j = some c →
        j = key ∧ c = entry ∨ o.runs.get j = some c := by
      intro j c hc
      rw [InsertionMap.get_set] at hc
      split at hc
      · rename_i hj
        cases hc
        exact .inl ⟨hj, rfl⟩
      · exact .inr hc
    have hbelow : ∀ {j c}, o.runs.get j = some c → c.admission ≠ entry.admission :=
      fun hc => Nat.ne_of_lt (h.numbered hc)
    constructor
    · refine ⟨?_, h.indexed.push entry hnone, ?_, ?_, ?_, ?_, h.ordered, ?_⟩
      · intro j c hc
        obtain ⟨rfl, rfl⟩ | hc := hget hc
        · rfl
        · exact h.keyed hc
      · intro j c hc
        obtain ⟨rfl, rfl⟩ | hc := hget hc
        · exact Nat.lt_succ_self _
        · exact Nat.lt_succ_of_lt (h.numbered hc)
      · intro j k c d hc hd hcd
        obtain ⟨rfl, rfl⟩ | hc := hget hc <;> obtain ⟨rfl, rfl⟩ | hd := hget hd
        · rfl
        · exact absurd hcd.symm (hbelow hd)
        · exact absurd hcd (hbelow hc)
        · exact h.unique hc hd hcd
      · exact fun hcall => Nat.lt_succ_of_lt (h.made hcall)
      · intro tenant observation n writer j c hcall hc hn
        obtain ⟨rfl, rfl⟩ | hc := hget hc
        · exact absurd (h.made hcall) (hn ▸ Nat.lt_irrefl _)
        · exact h.ahead hcall hc hn
      · intro j c hc
        obtain ⟨rfl, rfl⟩ | hc := hget hc
        · exact hactive
        · exact h.active hc
    · refine ⟨[], (List.append_nil _).symm, ?_, by simp, rfl, rfl⟩
      intro j c hc
      refine .inl ⟨c, ?_, rfl, rfl⟩
      dsimp only
      rw [InsertionMap.get_set_ne _ _ ?_]
      · exact hc
      · rintro rfl
        rw [hnone] at hc
        cases hc
  unfold admitRun
  dsimp only
  split
  · split
    · exact hadmit
    · exact hadmit.trans (advances_remove _)
  · exact hadmit

theorem Sound.finish (h : o.Sound) {sealed finished : List JsString}
    (hactive : ∀ {key a}, o.runs.get key = some a → a.writerId ∉ sealed ∧ a.writerId ∉ finished) :
    { o with sealed, finished }.Sound :=
  ⟨h.keyed, h.indexed, h.numbered, h.unique, h.made, h.ahead, h.ordered, hactive⟩

/-- What one call does: an entry stays, or its session is read anew, or the call closes its run. -/
structure StepSpec (o : RunObservations) (op : ObservationOp) (o' : RunObservations)
    (calls : List HubCall) : Prop where
  hub : o'.hub = o.hub ++ calls
  kept : ∀ {key a}, o.runs.get key = some a →
    (∃ b, o'.runs.get key = some b ∧ b.scope = a.scope ∧ b.admission = a.admission) ∨
      op.Closes key a ∨ HubCall.resyncSession a.scope.tenantId a.scope.sessionId ∈ calls
  writers : ∀ {tenant observation n writer},
    HubCall.publishObservation tenant observation n writer ∈ calls →
    writer ∉ o'.sealed ∧ writer ∉ o'.finished
  sealed : o.sealed ⊆ o'.sealed

theorem Advances.spec (h : Advances o o') (hsound : o.Sound) (op : ObservationOp) :
    o'.Sound ∧ ∃ calls, StepSpec o op o' calls := by
  obtain ⟨hsound', calls, hcalls⟩ := h hsound
  refine ⟨hsound', calls, hcalls.hub, fun ha => (hcalls.kept ha).imp_right .inr, ?_, ?_⟩
  · intro tenant observation n writer hcall
    rw [hcalls.sealed, hcalls.finished]
    exact hcalls.writers hcall
  · rw [hcalls.sealed]
    exact List.Subset.refl _

theorem remove_rest (id : JsString) : (o.remove id false).hub = o.hub ∧
    (o.remove id false).sealed = o.sealed ∧ (o.remove id false).finished = o.finished := by
  unfold remove
  split
  · exact ⟨rfl, rfl, rfl⟩
  · exact ⟨List.append_nil _, rfl, rfl⟩

theorem removeAll_spec (h : o.Sound) (ids : List JsString) :
    let o' := ids.foldl (fun o id => o.remove id false) o
    o'.Sound ∧ o'.hub = o.hub ∧ o'.sealed = o.sealed ∧ o'.finished = o.finished ∧
      ∀ key, o'.runs.get key = if key ∈ ids then none else o.runs.get key := by
  induction ids generalizing o with
  | nil => exact ⟨h, rfl, rfl, rfl, fun key => rfl⟩
  | cons id ids ih =>
    obtain ⟨hsound, hhub, hsealed, hfinished, hget⟩ := ih (h.remove id false)
    have hrest := remove_rest (o := o) id
    refine ⟨hsound, hhub.trans hrest.1, hsealed.trans hrest.2.1, hfinished.trans hrest.2.2, ?_⟩
    intro key
    rw [List.foldl_cons, hget, get_remove]
    by_cases hkey : key = id
    · rw [hkey, if_pos rfl, if_pos (List.mem_cons_self ..), ite_self]
    · rw [if_neg hkey]
      refine if_congr ?_ rfl rfl
      rw [List.mem_cons, or_iff_right hkey]

theorem removeFamily_spec (h : o.Sound) (writerId : JsString) :
    (o.removeFamily writerId).Sound ∧ (o.removeFamily writerId).hub = o.hub ∧
      (o.removeFamily writerId).sealed = o.sealed ∧
      (o.removeFamily writerId).finished = o.finished ∧
      ∀ {key a}, (o.removeFamily writerId).runs.get key = some a ↔
        o.runs.get key = some a ∧ a.writerId ≠ writerId := by
  obtain ⟨hsound, hhub, hsealed, hfinished, hget⟩ := removeAll_spec h (o.family writerId)
  refine ⟨hsound, hhub, hsealed, hfinished, ?_⟩
  intro key a
  unfold removeFamily
  rw [hget]
  have hfamily : key ∈ o.family writerId ↔ ∃ b, o.runs.get key = some b ∧ b.writerId = writerId := by
    unfold family
    rw [h.indexed.keys]
    exact InsertionMap.mem_keysWith
  split
  · rename_i hin
    obtain ⟨b, hb, hw⟩ := hfamily.mp hin
    constructor
    · rintro ⟨⟩
    · rintro ⟨ha, hne⟩
      rw [hb] at ha
      cases ha
      exact absurd hw hne
  · rename_i hout
    constructor
    · exact fun ha => ⟨ha, fun hw => hout (hfamily.mpr ⟨a, ha, hw⟩)⟩
    · exact fun ha => ha.1

theorem remove_publish (a : Active) (sessionId turnId : JsString) (body : RunObservationBody)
    (id : JsString) : (o.publish a sessionId turnId body).remove id false =
      (o.remove id false).publish a sessionId turnId body := by
  unfold remove publish
  dsimp only
  cases o.runs.get id with
  | none => rfl
  | some b =>
    dsimp only [resyncOf]
    rw [if_neg Bool.false_ne_true, List.append_nil, List.append_nil]

theorem closeRun_told (h : o.Sound) {key sessionId turnId toolCallId : JsString} {a : Active}
    (ha : o.runs.get key = some a) {state : ChildState} (observedAt lastActivityAt : Nat) :
    ((o.publish a sessionId turnId (.childActivity state a.scope.sessionId a.scope.turnId toolCallId
      (a.revision + 1) observedAt lastActivityAt .settling)).remove key false).Sound := by
  rw [remove_publish]
  have hremoved := h.remove key false
  have hsame : (o.remove key false).admissions = o.admissions ∧ (o.remove key false).hub = o.hub := by
    unfold remove
    rw [ha]
    exact ⟨rfl, List.append_nil _⟩
  refine hremoved.publish (hsame.1 ▸ h.numbered ha) ?_ ?_
  · intro tenant observation writer hcall
    rw [hsame.2] at hcall
    obtain ⟨hrun, hgen, hpos⟩ := h.ahead hcall ha rfl
    refine ⟨hrun, hgen, fun htype => ?_⟩
    rw [htype] at hpos
    exact Nat.lt_succ_of_le hpos
  · intro j b hb hba
    rw [get_remove] at hb
    split at hb
    · cases hb
    · rename_i hj
      exact absurd (h.unique hb ha hba) hj

theorem get_removed {key : JsString} (id : JsString) {a : Active} (ha : o.runs.get key = some a) :
    (o.remove id false).runs.get key = some a ∨ id = key := by
  rw [get_remove]
  split
  · rename_i hkey
    exact .inr hkey.symm
  · exact .inl ha

theorem closeRun_spec (h : o.Sound) {record : ObservedRecord} {isOpen : Bool} {clock : Nat → Nat}
    (hcloses : isOpen = false ∨ record.fact.ended?.isSome = true) :
    (o.closeRun record clock).Sound ∧
      ∃ calls, StepSpec o (.record record isOpen clock) (o.closeRun record clock) calls := by
  set key := observationKey record.scope with hkey
  obtain ⟨hhub, hsealed, hfinished⟩ := remove_rest (o := o) key
  have hremoved : (o.remove key false).Sound ∧
      ∃ calls, StepSpec o (.record record isOpen clock) (o.remove key false) calls := by
    refine ⟨h.remove key false, [], hhub.trans (List.append_nil _).symm, ?_, (nomatch ·),
      hsealed ▸ List.Subset.refl _⟩
    intro j a ha
    obtain ha | hj := get_removed key ha
    · exact .inl ⟨a, ha, rfl, rfl⟩
    · exact .inr (.inl (.inr ⟨hj, hcloses⟩))
  unfold closeRun
  dsimp only
  split
  · rename_i a state ha hstate
    obtain hnone | ⟨sessionId, turnId, toolCallId, hchild⟩ := childActivity_cases (o := o) a
      (a.revision + 1) (clock 0) (clock 1) .settling state
    · rw [hnone]
      exact hremoved
    rw [hchild]
    refine ⟨closeRun_told h ha _ _, ?_⟩
    rw [remove_publish]
    refine ⟨_, congrArg (· ++ _) hhub, ?_, ?_, hsealed ▸ List.Subset.refl _⟩
    · intro j b hb
      obtain hb | hj := get_removed key hb
      · exact .inl ⟨b, hb, rfl, rfl⟩
      · exact .inr (.inl (.inr ⟨hj, hcloses⟩))
    · intro tenant observation n writer hcall
      cases List.mem_singleton.mp hcall
      change a.writerId ∉ (o.remove key false).sealed ∧ a.writerId ∉ (o.remove key false).finished
      rw [hsealed, hfinished]
      exact h.active ha
  · exact hremoved

theorem recordOpen_spec (h : o.Sound) {record : ObservedRecord} (clock : Nat → Nat)
    (hwriter : record.scope.writerId ∉ o.sealed) (op : ObservationOp) :
    (o.recordOpen record clock).Sound ∧ ∃ calls, StepSpec o op (o.recordOpen record clock) calls := by
  set finished := o.finished.filter (fun w => w ≠ record.scope.writerId) with hfinished
  have hreopened : { o with finished }.Sound := by
    refine h.finish fun ha => ⟨(h.active ha).1, fun hin => ?_⟩
    exact (h.active ha).2 (List.mem_of_mem_filter hin)
  have hactive : record.scope.writerId ∉ o.sealed ∧ record.scope.writerId ∉ finished := by
    refine ⟨hwriter, fun hin => ?_⟩
    have := of_decide_eq_true (List.mem_filter.mp hin).2
    exact this rfl
  have hrest : ∀ o', Advances { o with finished } o' →
      o'.Sound ∧ ∃ calls, StepSpec o op o' calls := by
    intro o' hadvances
    obtain ⟨hsound, calls, hspec⟩ := hadvances.spec hreopened op
    exact ⟨hsound, calls, hspec.hub, hspec.kept, hspec.writers, hspec.sealed⟩
  refine hrest _ ?_
  unfold recordOpen
  dsimp only
  split
  · rename_i a ha
    exact advances_observe ha
  · exact .refl _
  · rename_i hnone hprobe
    have hadmit : Advances { o with finished } (({ o with finished } : RunObservations).admitRun record
        (clock 0)) := advances_admitRun hnone hactive
    split
    · rename_i a ha
      exact hadmit.trans (advances_observe ha)
    · exact hadmit

theorem record_spec (h : o.Sound) {record : ObservedRecord} {isOpen : Bool} (clock : Nat → Nat)
    (hpromised : isOpen = true → record.scope.writerId ∉ o.sealed) :
    (o.record record isOpen clock).Sound ∧
      ∃ calls, StepSpec o (.record record isOpen clock) (o.record record isOpen clock) calls := by
  obtain ⟨hsound, hhub, hsealed, hfinished, hget⟩ := removeFamily_spec h record.scope.writerId
  have hkept : (record.fact = .executionSeal ∨ record.fact = .workFinished) → ∀ {key a},
      o.runs.get key = some a →
      (∃ b, (o.removeFamily record.scope.writerId).runs.get key = some b ∧ b.scope = a.scope ∧
        b.admission = a.admission) ∨ (ObservationOp.record record isOpen clock).Closes key a ∨
        HubCall.resyncSession a.scope.tenantId a.scope.sessionId ∈ [] := by
    intro hfact key a ha
    by_cases hw : record.scope.writerId = a.writerId
    · exact .inr (.inl (.inl ⟨hfact, hw⟩))
    · exact .inl ⟨a, hget.mpr ⟨ha, fun heq => hw heq.symm⟩, rfl, rfl⟩
  have hleft : ∀ {key a}, (o.removeFamily record.scope.writerId).runs.get key = some a →
      a.writerId ≠ record.scope.writerId ∧ a.writerId ∉ o.sealed ∧ a.writerId ∉ o.finished := by
    intro key a ha
    obtain ⟨ha, hne⟩ := hget.mp ha
    exact ⟨hne, h.active ha⟩
  unfold RunObservations.record
  split
  · rename_i hfact
    refine ⟨hsound.finish ?_, [], hhub.trans (List.append_nil _).symm, hkept (.inl hfact), (nomatch ·),
      List.subset_cons_self ..⟩
    intro key a ha
    obtain ⟨hne, hopen, hworking⟩ := hleft ha
    refine ⟨fun hin => ?_, hfinished ▸ hworking⟩
    exact (List.mem_cons.mp hin).elim hne hopen
  · rename_i hfact
    refine ⟨hsound.finish ?_, [], hhub.trans (List.append_nil _).symm, hkept (.inr hfact), (nomatch ·),
      hsealed ▸ List.Subset.refl _⟩
    intro key a ha
    obtain ⟨hne, hopen, hworking⟩ := hleft ha
    refine ⟨hsealed ▸ hopen, fun hin => ?_⟩
    exact (List.mem_cons.mp hin).elim hne hworking
  · split
    · rename_i hclose
      refine closeRun_spec h ?_
      rw [Bool.or_eq_true, Bool.not_eq_true'] at hclose
      exact hclose
    · rename_i hclose
      refine recordOpen_spec h clock (hpromised ?_) _
      rw [Bool.or_eq_true, not_or, Bool.not_eq_true', Bool.not_eq_false] at hclose
      exact hclose.1

theorem step_spec (h : o.Sound) {op : ObservationOp} (hstep : observing.step o op o') :
    o'.Sound ∧ ∃ calls, StepSpec o op o' calls := by
  obtain ⟨hpromised, rfl⟩ := hstep
  cases op with
  | record r isOpen clock => exact record_spec h clock hpromised
  | activity delivery now => exact (advances_activity delivery now).spec h _
  | executionTargets writerId bindings sentAt clock =>
    exact (advances_executionTargets writerId bindings sentAt clock).spec h _
  | execution scope value now => exact (advances_execution scope value now).spec h _
  | sweep clock => exact (advances_sweep clock).spec h _
  | reset =>
    refine ⟨?_, [], (List.append_nil _).symm, fun _ => .inr (.inl trivial), (nomatch ·),
      List.Subset.refl _⟩
    exact ⟨(nomatch ·), .empty, (nomatch ·), (nomatch ·), h.made, fun _ ha => (nomatch ha), h.ordered,
      (nomatch ·)⟩

theorem sound_of_reach {ops : List ObservationOp} (h : Reach observing ops o) : o.Sound := by
  refine h.invariant Sound ?_ fun s op t hs hstep => (step_spec hs hstep).1
  rintro s rfl
  exact sound_start

theorem later_spec {o' : RunObservations} (h : o.Sound) (hlater : Steps observing o o') :
    o'.Sound ∧ o.sealed ⊆ o'.sealed ∧ ∃ calls, o'.hub = o.hub ++ calls ∧
      ∀ {tenant observation n writer},
        HubCall.publishObservation tenant observation n writer ∈ calls → writer ∉ o.sealed := by
  induction hlater with
  | refl => exact ⟨h, List.Subset.refl _, [], (List.append_nil _).symm, (nomatch ·)⟩
  | snoc _ hstep ih =>
    obtain ⟨hsound, hsub, calls, hhub, hwriters⟩ := ih
    obtain ⟨hsound', calls', hspec⟩ := step_spec hsound hstep
    refine ⟨hsound', List.Subset.trans hsub hspec.sealed, calls ++ calls', ?_, ?_⟩
    · rw [hspec.hub, hhub, List.append_assoc]
    · intro tenant observation n writer hcall
      obtain hcall | hcall := List.mem_append.mp hcall
      · exact hwriters hcall
      · exact fun hin => (hspec.writers hcall).1 (hspec.sealed (hsub hin))

end RunObservations
end Runtime
end PiCloud
