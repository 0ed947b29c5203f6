import PiCloud.Runtime.EventSubscription

/-!
# Runtime.SubscriptionDelivery

What a subscription delivers, whatever the order of the calls.

* `Counted`: the byte counter is the sum over the queue, and within the budget.
* `Quiet`: a read waits only where there is nothing to give it.
* `Told`: the events come in order and without a gap, then at most one resync wake, then the end.
* `Aside`: the calls that are not about events leave the queue of events alone.
-/

namespace PiCloud
namespace Runtime

open Lib Protocol

def Delivered.Live (d : Delivered) : Prop := ¬ (d = .resync ∨ d = .ended)

namespace SessionEventSubscription

/-! ## The counter -/

def queueBytes (s : SessionEventSubscription) : Nat := (s.queuedWakes.map QueuedWake.bytes).sum

/-- The counter of a subscription with this budget. -/
structure Counted (maximumPendingBytes : Nat) (s : SessionEventSubscription) : Prop where
  budget : s.maximumPendingBytes = maximumPendingBytes
  bytes : s.queuedBytes = s.queueBytes
  bounded : s.queuedBytes ≤ maximumPendingBytes

/-! ## The waiting read -/

def Silent (progress : InsertionMap JsString ProgressPreview) : Prop :=
  ∀ id preview, progress.get id = some preview → preview.channel.take = none

/-- Nothing is left for a reader. -/
structure Empty (s : SessionEventSubscription) : Prop where
  queuedWakes : s.queuedWakes = []
  inputQueue : s.inputQueue = none
  observations : s.observations.entries = []
  progress : Silent s.progress

def Quiet (s : SessionEventSubscription) : Prop :=
  s.pendingRead ≠ none → s.Empty ∧ s.closed = false ∧ s.resync = false

theorem quiet_of_none {s : SessionEventSubscription} (h : s.pendingRead = none) : s.Quiet :=
  fun hp => absurd h hp

/-! ## Calls that are not about events -/

/-- `s'` has the queue of `s`, and what was given is neither an event nor the end. -/
structure Aside (s s' : SessionEventSubscription) (d : Option Delivered) : Prop where
  queuedWakes : s'.queuedWakes = s.queuedWakes
  queuedBytes : s'.queuedBytes = s.queuedBytes
  maximumPendingBytes : s'.maximumPendingBytes = s.maximumPendingBytes
  closed : s'.closed = s.closed
  resync : s'.resync = s.resync
  given : ∀ e, d = some e → s.closed = false ∧ s.resync = false ∧ e.event? = none ∧
    e.Live

theorem Aside.refl (s : SessionEventSubscription) : s.Aside s none :=
  ⟨rfl, rfl, rfl, rfl, rfl, by intro e he; cases he⟩

theorem Aside.trans {s t u : SessionEventSubscription} {d : Option Delivered}
    (h : s.Aside t none) (h' : t.Aside u d) : s.Aside u d where
  queuedWakes := h'.queuedWakes.trans h.queuedWakes
  queuedBytes := h'.queuedBytes.trans h.queuedBytes
  maximumPendingBytes := h'.maximumPendingBytes.trans h.maximumPendingBytes
  closed := h'.closed.trans h.closed
  resync := h'.resync.trans h.resync
  given := by
    rw [← h.closed, ← h.resync]
    exact h'.given

theorem aside_of_eq {s s' : SessionEventSubscription}
    (h : s' = { s with pendingRead := s'.pendingRead, reads := s'.reads, progress := s'.progress
                       observations := s'.observations, inputQueue := s'.inputQueue }) :
    s.Aside s' none := by
  rw [h]
  exact ⟨rfl, rfl, rfl, rfl, rfl, by intro e he; cases he⟩

theorem aside_progress (s : SessionEventSubscription)
    (progress : InsertionMap JsString ProgressPreview) : s.Aside { s with progress } none :=
  aside_of_eq rfl

theorem Aside.counted {s s' : SessionEventSubscription} {d : Option Delivered} {maximum : Nat}
    (h : s.Aside s' d) (hs : s.Counted maximum) : s'.Counted maximum where
  budget := h.maximumPendingBytes.trans hs.budget
  bytes := by
    unfold queueBytes
    rw [h.queuedBytes, h.queuedWakes]
    exact hs.bytes
  bounded := h.queuedBytes ▸ hs.bounded

theorem Silent.subset {progress progress' : InsertionMap JsString ProgressPreview}
    (h : Silent progress)
    (hp : ∀ id preview, progress'.get id = some preview → progress.get id = some preview) :
    Silent progress' :=
  fun id preview hget => h id preview (hp id preview hget)

theorem Silent.set {progress : InsertionMap JsString ProgressPreview} (h : Silent progress)
    (id : JsString) (preview : ProgressPreview) (hp : preview.channel.take = none) :
    Silent (progress.set id preview) := by
  intro j v hget
  rw [InsertionMap.get_set] at hget
  split at hget
  · cases hget
    exact hp
  · exact h j v hget

theorem Empty.withProgress {s : SessionEventSubscription} (h : s.Empty)
    {progress : InsertionMap JsString ProgressPreview} (hp : Silent progress) :
    { s with progress }.Empty :=
  ⟨h.queuedWakes, h.inputQueue, h.observations, hp⟩

theorem Quiet.withProgress {s : SessionEventSubscription} (hq : s.Quiet)
    {progress : InsertionMap JsString ProgressPreview} (hp : Silent s.progress → Silent progress) :
    Quiet { s with progress } :=
  fun hr => ⟨(hq hr).1.withProgress (hp (hq hr).1.progress), (hq hr).2⟩

theorem not_done {s : SessionEventSubscription} (h : ¬ (s.closed || s.resync) = true) :
    s.closed = false ∧ s.resync = false := by
  rw [Bool.or_eq_true, not_or, Bool.not_eq_true, Bool.not_eq_true] at h
  exact h

theorem aside_give {s s' : SessionEventSubscription} {d : Delivered}
    (hopen : s.closed = false ∧ s.resync = false)
    (hs' : s' = { s with pendingRead := s'.pendingRead, reads := s'.reads, progress := s'.progress
                         observations := s'.observations, inputQueue := s'.inputQueue })
    (hevent : d.event? = none) (hlive : d.Live) :
    s.Aside s' (some d) where
  queuedWakes := (aside_of_eq hs').queuedWakes
  queuedBytes := (aside_of_eq hs').queuedBytes
  maximumPendingBytes := (aside_of_eq hs').maximumPendingBytes
  closed := (aside_of_eq hs').closed
  resync := (aside_of_eq hs').resync
  given := by
    intro e he
    cases he
    exact ⟨hopen.1, hopen.2, hevent, hlive⟩

section Calls

variable {s : SessionEventSubscription} {r : Outcome}

theorem acceptProgress_spec (progress : ToolProgress) (preview : ProgressPreview)
    (hq : s.Quiet) (hopen : s.closed = false ∧ s.resync = false) :
    s.Aside (s.acceptProgress progress preview).1 (s.acceptProgress progress preview).2 ∧
      (s.acceptProgress progress preview).1.Quiet := by
  unfold acceptProgress
  split
  · exact ⟨.refl s, hq⟩
  · exact ⟨.refl s, hq⟩
  · rename_i channel haccept
    split
    · rename_i hp
      exact ⟨aside_progress s _, quiet_of_none hp⟩
    · rename_i pending hp
      have hempty := (hq (hp ▸ Option.some_ne_none pending)).1
      split
      · rename_i htake
        exact ⟨aside_progress s _, fun _ => ⟨hempty.withProgress (hempty.progress.set _ _ htake), hopen⟩⟩
      · exact ⟨aside_give hopen rfl rfl nofun, quiet_of_none rfl⟩

theorem notifyProgress_spec {progress : ToolProgress} (hq : s.Quiet)
    (h : s.notifyProgress progress = .ok r) : s.Aside r.1 r.2 ∧ r.1.Quiet := by
  unfold notifyProgress at h
  split at h
  · cases h
    exact ⟨.refl s, hq⟩
  · rename_i hdone
    have hopen := not_done hdone
    split at h
    · cases h
    · cases hget : s.progress.get progress.operationId with
      | some preview =>
        rw [hget] at h
        dsimp only at h
        split at h
        · cases h
          exact ⟨.refl s, hq⟩
        · cases h
          exact acceptProgress_spec progress preview hq hopen
      | none =>
        rw [hget] at h
        dsimp only at h
        cases h
        have hroom : ∀ id v, (if 64 ≤ s.progress.size then s.progress.deleteOldest
            else s.progress).get id = some v → s.progress.get id = some v := by
          intro id v hv
          split at hv
          · exact InsertionMap.get_deleteOldest_some hv
          · exact hv
        have hq' := hq.withProgress fun hs =>
          (hs.subset hroom).set progress.operationId ⟨progress, {}⟩ rfl
        obtain ⟨haside, hquiet⟩ := acceptProgress_spec progress ⟨progress, {}⟩ hq' hopen
        exact ⟨(aside_progress s _).trans haside, hquiet⟩

theorem forgetProgress_spec (operationId : JsString) (hq : s.Quiet) :
    s.Aside (s.forgetProgress operationId) none ∧ (s.forgetProgress operationId).Quiet := by
  refine ⟨aside_progress s _, hq.withProgress fun hs => hs.subset ?_⟩
  intro id preview hget
  exact InsertionMap.get_delete_some hget

theorem notifyObservation_spec (o : RunObservation) (hq : s.Quiet) :
    s.Aside (s.notifyObservation o).1 (s.notifyObservation o).2 ∧
      (s.notifyObservation o).1.Quiet := by
  unfold notifyObservation
  split
  · exact ⟨.refl s, hq⟩
  · rename_i hdone
    have hopen := not_done hdone
    split
    · exact ⟨aside_give hopen rfl rfl (by rintro (h | h) <;> cases h), quiet_of_none rfl⟩
    · rename_i hp
      split
      · exact ⟨.refl s, hq⟩
      · dsimp only
        split
        · exact ⟨aside_of_eq rfl, quiet_of_none hp⟩
        · exact ⟨aside_of_eq rfl, quiet_of_none hp⟩

theorem notifyInputQueue_spec {inputQueue : InputQueueResource} (hq : s.Quiet)
    (h : s.notifyInputQueue inputQueue = .ok r) : s.Aside r.1 r.2 ∧ r.1.Quiet := by
  unfold notifyInputQueue at h
  split at h
  · cases h
    exact ⟨.refl s, hq⟩
  · rename_i hdone
    have hopen := not_done hdone
    split at h
    · cases h
    · split at h
      · cases h
        exact ⟨.refl s, hq⟩
      · split at h
        · cases h
          exact ⟨aside_give hopen rfl rfl nofun, quiet_of_none rfl⟩
        · rename_i hp
          cases h
          exact ⟨aside_of_eq rfl, quiet_of_none hp⟩

theorem beat_spec (read : Nat) (hq : s.Quiet) :
    s.Aside (s.beat read).1 (s.beat read).2 ∧ (s.beat read).1.Quiet := by
  unfold beat
  split
  · exact ⟨.refl s, hq⟩
  · rename_i pending hp
    split
    · have hopen := (hq (hp ▸ Option.some_ne_none pending)).2
      exact ⟨aside_give hopen rfl rfl nofun, quiet_of_none rfl⟩
    · exact ⟨.refl s, hq⟩

theorem takeProgress_none (h : s.takeProgress = none) : Silent s.progress := by
  intro id preview hget
  have hmem := List.findSome?_eq_none_iff.mp h (id, preview) (InsertionMap.mem_entries.mpr hget)
  exact Option.map_eq_none_iff.mp hmem

theorem next_spec {heartbeat : Bool} (hq : s.Quiet) (hqueue : s.queuedWakes = [])
    (hopen : s.closed = false ∧ s.resync = false) (h : s.next heartbeat = .ok r) :
    s.Aside r.1 r.2 ∧ r.1.Quiet := by
  have hready : ∀ {s' : SessionEventSubscription}, s'.pendingRead = s.pendingRead → ¬ s.Empty →
      s'.Quiet := fun hp hne => quiet_of_none (hp.trans (by
    by_contra hsome
    exact hne (hq hsome).1))
  unfold next at h
  split at h
  · rename_i hcons
    rw [hqueue] at hcons
    cases hcons
  · split at h
    · rename_i hdone
      rw [hopen.1, hopen.2] at hdone
      cases hdone
    · split at h
      · rename_i inputQueue hinput
        cases h
        refine ⟨aside_give hopen rfl rfl nofun, hready rfl fun hempty => ?_⟩
        rw [hempty.inputQueue] at hinput
        cases hinput
      · rename_i hinput
        split at h
        · rename_i id observation rest hobservations
          cases h
          refine ⟨aside_give hopen rfl rfl nofun, hready rfl fun hempty => ?_⟩
          rw [hempty.observations] at hobservations
          cases hobservations
        · rename_i hobservations
          split at h
          · rename_i id header update channel htake
            cases h
            refine ⟨aside_give hopen rfl rfl nofun, hready rfl fun hempty => ?_⟩
            obtain ⟨e, he, hmap⟩ := List.exists_of_findSome?_eq_some htake
            rw [hempty.progress e.1 e.2 (InsertionMap.mem_entries.mp he)] at hmap
            cases hmap
          · rename_i htake
            split at h
            · cases h
            · cases h
              refine ⟨aside_of_eq rfl, fun _ => ⟨?_, hopen⟩⟩
              exact ⟨hqueue, hinput, hobservations, takeProgress_none htake⟩

/-- What asking an open subscription to resync leaves behind. -/
structure Resyncing (s : SessionEventSubscription) (r : Outcome) : Prop where
  closed : r.1.closed = false
  resync : r.1.resync = true
  maximumPendingBytes : r.1.maximumPendingBytes = s.maximumPendingBytes
  queuedBytes : r.1.queuedBytes = 0
  pendingRead : r.1.pendingRead = none
  woken : (r.2 = some .resync ∧ r.1.queuedWakes = []) ∨
    (r.2 = none ∧ r.1.queuedWakes = [⟨{ throughSequence := none }, 0⟩])

theorem askResync_spec (hopen : s.closed = false ∧ s.resync = false) :
    s.Resyncing s.askResync := by
  unfold askResync
  split
  · rename_i hdone
    rw [hopen.1, hopen.2] at hdone
    cases hdone
  · dsimp only
    split
    · exact ⟨hopen.1, rfl, rfl, rfl, rfl, .inl ⟨rfl, rfl⟩⟩
    · rename_i hp
      exact ⟨hopen.1, rfl, rfl, rfl, hp, .inr ⟨rfl, rfl⟩⟩

theorem Resyncing.counted {maximum : Nat} (h : s.Resyncing r) (hs : s.Counted maximum) :
    r.1.Counted maximum where
  budget := h.maximumPendingBytes.trans hs.budget
  bytes := by
    unfold queueBytes
    rw [h.queuedBytes]
    rcases h.woken with ⟨-, hq⟩ | ⟨-, hq⟩
    · rw [hq]
      rfl
    · rw [hq]
      rfl
  bounded := by
    rw [h.queuedBytes]
    exact Nat.zero_le _

theorem close_spec {maximum : Nat} (hs : s.Counted maximum) (hq : s.Quiet) :
    s.close.1.Counted maximum ∧ s.close.1.Quiet := by
  unfold close
  split
  · exact ⟨hs, hq⟩
  · dsimp only
    split
    · exact ⟨⟨hs.budget, rfl, Nat.zero_le _⟩, quiet_of_none rfl⟩
    · rename_i hp
      exact ⟨⟨hs.budget, rfl, Nat.zero_le _⟩, quiet_of_none hp⟩

theorem push_spec (event : PiCloudEvent) (encodedBytes : Nat) {maximum : Nat}
    (hs : s.Counted maximum) (hopen : s.closed = false ∧ s.resync = false) :
    (s.push event encodedBytes).1.Counted maximum ∧ (s.push event encodedBytes).1.Quiet := by
  have hresync := askResync_spec hopen
  unfold push
  dsimp only
  split
  · exact ⟨⟨hs.budget, hs.bytes, hs.bounded⟩, quiet_of_none rfl⟩
  · rename_i hp
    split
    · exact ⟨hresync.counted hs, quiet_of_none hresync.pendingRead⟩
    · split
      · exact ⟨hresync.counted hs, quiet_of_none hresync.pendingRead⟩
      · rename_i hfits
        rw [hs.budget, Nat.not_lt] at hfits
        refine ⟨⟨hs.budget, ?_, hfits⟩, quiet_of_none hp⟩
        unfold queueBytes
        dsimp only
        rw [List.map_append, List.sum_append, hs.bytes]
        rfl

end Calls

end SessionEventSubscription

open SessionEventSubscription

/-! ## What the reader was told -/

/-- `live` came first, then `resyncs` resync wakes and `ends` ends. -/
structure Told (w : Watch) (live : List Delivered) (resyncs ends : Nat) : Prop where
  delivered : w.delivered =
    live ++ List.replicate resyncs Delivered.resync ++ List.replicate ends Delivered.ended
  alive : ∀ d ∈ live, d.Live
  events : live.filterMap Delivered.event? <+: w.notified
  once : resyncs ≤ 1
  asked : resyncs = 1 → w.subscription.resync = true
  ended : 0 < ends → w.subscription.closed = true ∨ resyncs = 1
  /-- while nothing has happened to it, no event is lost -/
  whole : w.subscription.closed = false → w.subscription.resync = false →
    resyncs = 0 ∧ (∀ q ∈ w.subscription.queuedWakes, q.wake.event ≠ none) ∧
      live.filterMap Delivered.event? ++ w.subscription.queuedWakes.filterMap (·.wake.event) =
        w.notified
  /-- the one resync wake has been read or comes next -/
  waking : w.subscription.closed = false → w.subscription.resync = true →
    (resyncs = 0 ∧ w.subscription.queuedWakes = [⟨{ throughSequence := none }, 0⟩]) ∨
      (resyncs = 1 ∧ w.subscription.queuedWakes = [])
  closed : w.subscription.closed = true → w.subscription.queuedWakes = []

namespace Told

variable {w : Watch} {live : List Delivered} {resyncs ends : Nat}

theorem open_counts (h : Told w live resyncs ends)
    (hopen : w.subscription.closed = false ∧ w.subscription.resync = false) :
    resyncs = 0 ∧ ends = 0 := by
  have hn := (h.whole hopen.1 hopen.2).1
  refine ⟨hn, Nat.eq_zero_of_not_pos fun hk => ?_⟩
  rcases h.ended hk with hc | h1
  · rw [hopen.1] at hc
    cases hc
  · omega

theorem aside (h : Told w live resyncs ends) {s : SessionEventSubscription} {d : Option Delivered}
    (ha : w.subscription.Aside s d) :
    ∃ live', Told ⟨s, w.notified, w.delivered ++ d.toList⟩ live' resyncs ends := by
  cases d with
  | none =>
    refine ⟨live, ?_, h.alive, h.events, h.once, ?_, ?_, ?_, ?_, ?_⟩
    · rw [Option.toList_none, List.append_nil]
      exact h.delivered
    all_goals
      dsimp only
      simp only [ha.closed, ha.resync, ha.queuedWakes]
    · exact h.asked
    · exact h.ended
    · exact h.whole
    · exact h.waking
    · exact h.closed
  | some e =>
    obtain ⟨hc, hr, hevent, hlive⟩ := ha.given e rfl
    obtain ⟨rfl, rfl⟩ := h.open_counts ⟨hc, hr⟩
    have hevents : (live ++ [e]).filterMap Delivered.event? = live.filterMap Delivered.event? := by
      rw [List.filterMap_append, List.filterMap_cons_none hevent, List.filterMap_nil,
        List.append_nil]
    have hdelivered : w.delivered = live := by
      have := h.delivered
      rwa [List.replicate_zero, List.replicate_zero, List.append_nil, List.append_nil] at this
    refine ⟨live ++ [e], ?_, ?_, ?_, Nat.zero_le 1, nofun, nofun, ?_, ?_, ?_⟩
    · dsimp only [Option.toList_some]
      rw [hdelivered, List.replicate_zero, List.replicate_zero, List.append_nil, List.append_nil]
    · intro d hd
      rcases List.mem_append.mp hd with hd | hd
      · exact h.alive d hd
      · rw [List.mem_singleton.mp hd]
        exact hlive
    · rw [hevents]
      exact h.events
    · dsimp only
      rw [hevents, ha.queuedWakes]
      exact fun _ _ => h.whole hc hr
    · dsimp only
      rw [ha.resync, hr]
      nofun
    · dsimp only
      rw [ha.closed, hc]
      nofun

theorem ignored (h : Told w live resyncs ends)
    (hdone : (w.subscription.closed || w.subscription.resync) = true) (es : List PiCloudEvent) :
    Told ⟨w.subscription, w.notified ++ es, w.delivered⟩ live resyncs ends where
  delivered := h.delivered
  alive := h.alive
  events := h.events.trans (List.prefix_append _ _)
  once := h.once
  asked := h.asked
  ended := h.ended
  whole := by
    intro hc hr
    dsimp only at hc hr
    rw [hc, hr] at hdone
    cases hdone
  waking := h.waking
  closed := h.closed

theorem delivered_open (h : Told w live resyncs ends)
    (hopen : w.subscription.closed = false ∧ w.subscription.resync = false) :
    w.delivered = live := by
  obtain ⟨rfl, rfl⟩ := h.open_counts hopen
  have hd := h.delivered
  rwa [List.replicate_zero, List.replicate_zero, List.append_nil, List.append_nil] at hd

theorem resynced (h : Told w live resyncs ends)
    (hopen : w.subscription.closed = false ∧ w.subscription.resync = false)
    (es : List PiCloudEvent) :
    ∃ resyncs', Told ⟨w.subscription.askResync.1, w.notified ++ es,
      w.delivered ++ w.subscription.askResync.2.toList⟩ live resyncs' 0 := by
  have hd := h.delivered_open hopen
  have hevents := h.events.trans (List.prefix_append w.notified es)
  have hr := askResync_spec hopen
  have hclosed : ¬ w.subscription.askResync.1.closed = true := by
    rw [hr.closed]
    exact Bool.false_ne_true
  rcases hr.woken with ⟨hgiven, hqueue⟩ | ⟨hgiven, hqueue⟩
  · refine ⟨1, ?_, h.alive, hevents, Nat.le_refl 1, fun _ => hr.resync, nofun, ?_, ?_, ?_⟩
    · dsimp only
      rw [hgiven, hd]
      simp only [Option.toList_some, List.replicate_one, List.replicate_zero, List.append_nil]
    · intro _ hopen'
      cases hr.resync.symm.trans hopen'
    · exact fun _ _ => .inr ⟨rfl, hqueue⟩
    · exact fun hc => absurd hc hclosed
  · refine ⟨0, ?_, h.alive, hevents, Nat.zero_le 1, nofun, nofun, ?_, ?_, ?_⟩
    · dsimp only
      rw [hgiven, hd]
      simp only [Option.toList_none, List.replicate_zero, List.append_nil]
    · intro _ hopen'
      cases hr.resync.symm.trans hopen'
    · exact fun _ _ => .inl ⟨rfl, hqueue⟩
    · exact fun hc => absurd hc hclosed

theorem pushed (h : Told w live resyncs ends) (hq : w.subscription.Quiet)
    (hopen : w.subscription.closed = false ∧ w.subscription.resync = false) (event : PiCloudEvent)
    (encodedBytes : Nat) :
    ∃ live' resyncs', Told ⟨(w.subscription.push event encodedBytes).1, w.notified ++ [event],
      w.delivered ++ (w.subscription.push event encodedBytes).2.toList⟩ live' resyncs' 0 := by
  have hd := h.delivered_open hopen
  obtain ⟨rfl, hwakes, hwhole⟩ := h.whole hopen.1 hopen.2
  unfold push
  dsimp only
  split
  · rename_i pending hp
    have hqueue := (hq (hp ▸ Option.some_ne_none pending)).1.queuedWakes
    rw [hqueue, List.filterMap_nil, List.append_nil] at hwhole
    have hevents : (live ++ [Delivered.wake { throughSequence := some event.seq, event }]).filterMap
        Delivered.event? = w.notified ++ [event] := by
      rw [List.filterMap_append, hwhole]
      rfl
    refine ⟨live ++ [.wake { throughSequence := some event.seq, event }], 0, ?_, ?_, ?_,
      Nat.zero_le 1, nofun, nofun, ?_, ?_, ?_⟩
    · rw [hd]
      simp only [List.replicate_zero, List.append_nil]
      rfl
    · intro d hmem
      rcases List.mem_append.mp hmem with hmem | hmem
      · exact h.alive d hmem
      · rw [List.mem_singleton.mp hmem]
        unfold Delivered.Live Delivered.resync
        nofun
    · exact hevents ▸ List.prefix_refl _
    · refine fun _ _ => ⟨rfl, fun q hmem => hwakes q hmem, ?_⟩
      rw [hevents]
      have hrest : (w.subscription.resolve
          (.wake { throughSequence := some event.seq, event })).1.queuedWakes = [] := hqueue
      dsimp only
      rw [hrest, List.filterMap_nil, List.append_nil]
    · intro _ hr
      cases hopen.2.symm.trans hr
    · exact fun _ => hqueue
  · split
    · obtain ⟨resyncs', ht⟩ := h.resynced hopen [event]
      exact ⟨live, resyncs', ht⟩
    · split
      · obtain ⟨resyncs', ht⟩ := h.resynced hopen [event]
        exact ⟨live, resyncs', ht⟩
      · refine ⟨live, 0, ?_, h.alive, ?_, Nat.zero_le 1, nofun, nofun, ?_, ?_, ?_⟩
        · dsimp only
          rw [hd]
          simp only [Option.toList_none, List.replicate_zero, List.append_nil]
        · exact h.events.trans (List.prefix_append _ _)
        · refine fun _ _ => ⟨rfl, ?_, ?_⟩
          · intro q hmem
            rcases List.mem_append.mp hmem with hmem | hmem
            · exact hwakes q hmem
            · rw [List.mem_singleton.mp hmem]
              nofun
          · dsimp only
            rw [List.filterMap_append, ← List.append_assoc, hwhole]
            rfl
        · intro _ hr
          cases hopen.2.symm.trans hr
        · intro hc
          cases hopen.1.symm.trans hc

theorem shifted (h : Told w live resyncs ends) {queued : QueuedWake} {rest : List QueuedWake}
    (hqueue : w.subscription.queuedWakes = queued :: rest) {s : SessionEventSubscription}
    (hrest : s.queuedWakes = rest) (hclosed : s.closed = w.subscription.closed)
    (hresync : s.resync = w.subscription.resync) :
    ∃ live' resyncs', Told ⟨s, w.notified, w.delivered ++ [Delivered.wake queued.wake]⟩ live' resyncs' 0 := by
  have hc : w.subscription.closed = false := by
    refine Bool.eq_false_iff.mpr fun hc => ?_
    rw [h.closed hc] at hqueue
    cases hqueue
  cases hr : w.subscription.resync with
  | false =>
    have hd := h.delivered_open ⟨hc, hr⟩
    obtain ⟨rfl, hwakes, hwhole⟩ := h.whole hc hr
    rw [hqueue] at hwakes hwhole
    obtain ⟨event, hevent⟩ := Option.ne_none_iff_exists'.mp (hwakes queued (List.mem_cons_self ..))
    have hevents : (live ++ [Delivered.wake queued.wake]).filterMap Delivered.event? ++
        rest.filterMap (·.wake.event) = w.notified := by
      rw [← hwhole, List.filterMap_append, List.append_assoc]
      simp only [List.filterMap_cons, List.filterMap_nil, Delivered.event?, hevent]
      rfl
    refine ⟨live ++ [Delivered.wake queued.wake], 0, ?_, ?_, ?_, Nat.zero_le 1, nofun, nofun, ?_, ?_, ?_⟩
    · rw [hd]
      simp only [List.replicate_zero, List.append_nil]
    · intro d hmem
      rcases List.mem_append.mp hmem with hmem | hmem
      · exact h.alive d hmem
      · rw [List.mem_singleton.mp hmem]
        rintro (heq | heq)
        · have hw := Delivered.wake.inj heq
          rw [hw] at hevent
          cases hevent
        · cases heq
    · exact ⟨_, hevents⟩
    · refine fun _ _ => ⟨rfl, ?_, ?_⟩
      · dsimp only
        rw [hrest]
        exact fun q hmem => hwakes q (List.mem_cons_of_mem _ hmem)
      · dsimp only
        rw [hrest]
        exact hevents
    · intro _ hr'
      dsimp only at hr'
      rw [hresync, hr] at hr'
      cases hr'
    · intro hc'
      dsimp only at hc'
      rw [hclosed, hc] at hc'
      cases hc'
  | true =>
    rcases h.waking hc hr with ⟨rfl, hwake⟩ | ⟨-, hempty⟩
    · rw [hwake] at hqueue
      cases hqueue
      have hends : ends = 0 := by
        refine Nat.eq_zero_of_not_pos fun hpos => ?_
        rcases h.ended hpos with hc' | h1
        · cases hc.symm.trans hc'
        · cases h1
      subst hends
      refine ⟨live, 1, ?_, h.alive, h.events, Nat.le_refl 1, fun _ => hresync.trans hr, nofun,
        ?_, fun _ _ => .inr ⟨rfl, hrest⟩, fun _ => hrest⟩
      · dsimp only
        rw [h.delivered]
        simp only [List.replicate_zero, List.replicate_one, List.append_nil]
        rfl
      · intro _ hr'
        cases (hresync.trans hr).symm.trans hr'
    · rw [hempty] at hqueue
      cases hqueue

theorem finished (h : Told w live resyncs ends) (hqueue : w.subscription.queuedWakes = [])
    (hdone : (w.subscription.closed || w.subscription.resync) = true) :
    Told ⟨w.subscription, w.notified, w.delivered ++ [Delivered.ended]⟩ live resyncs (ends + 1) where
  delivered := by
    dsimp only
    rw [h.delivered, List.replicate_succ', List.append_assoc]
  alive := h.alive
  events := h.events
  once := h.once
  asked := h.asked
  ended := by
    intro _
    cases hc : w.subscription.closed with
    | true => exact .inl rfl
    | false =>
      rw [hc, Bool.false_or] at hdone
      rcases h.waking hc hdone with ⟨-, hwake⟩ | ⟨h1, -⟩
      · rw [hwake] at hqueue
        cases hqueue
      · exact .inr h1
  whole := h.whole
  waking := h.waking
  closed := h.closed

theorem closing (h : Told w live resyncs ends) :
    ∃ ends', Told ⟨w.subscription.close.1, w.notified,
      w.delivered ++ w.subscription.close.2.toList⟩ live resyncs ends' := by
  unfold close
  split
  · exact ⟨ends, by simpa only [Option.toList_none, List.append_nil] using h⟩
  · dsimp only
    split
    · refine ⟨ends + 1, ?_, h.alive, h.events, h.once, h.asked, fun _ => .inl rfl, nofun, nofun,
        fun _ => rfl⟩
      dsimp only
      rw [h.delivered, List.replicate_succ', ← List.append_assoc]
      rfl
    · refine ⟨ends, ?_, h.alive, h.events, h.once, h.asked, fun _ => .inl rfl, nofun, nofun,
        fun _ => rfl⟩
      dsimp only
      rw [Option.toList_none, List.append_nil]
      exact h.delivered

end Told

/-! ## Every call, every run -/

namespace Watch

/-- What holds of a subscription with this budget after every call. -/
structure Sound (maximumPendingBytes : Nat) (w : Watch) : Prop where
  counted : w.subscription.Counted maximumPendingBytes
  quiet : w.subscription.Quiet
  told : ∃ live resyncs ends, Told w live resyncs ends

variable {maximum : Nat} {w : Watch}

theorem Sound.aside (h : w.Sound maximum) {s : SessionEventSubscription} {d : Option Delivered}
    (ha : w.subscription.Aside s d) (hq : s.Quiet) :
    Sound maximum ⟨s, w.notified ++ [], w.delivered ++ d.toList⟩ := by
  obtain ⟨live, resyncs, ends, ht⟩ := h.told
  obtain ⟨live', ht'⟩ := ht.aside ha
  rw [List.append_nil]
  exact ⟨ha.counted h.counted, hq, live', resyncs, ends, ht'⟩

theorem Sound.notifyEvent (h : w.Sound maximum) {event : PiCloudEvent} {encodedBytes : Nat}
    {r : Outcome} (hr : w.subscription.notifyEvent event encodedBytes = .ok r) :
    Sound maximum ⟨r.1, w.notified ++ [event], w.delivered ++ r.2.toList⟩ := by
  obtain ⟨live, resyncs, ends, ht⟩ := h.told
  unfold SessionEventSubscription.notifyEvent at hr
  split at hr
  · rename_i hdone
    cases hr
    refine ⟨h.counted, h.quiet, live, resyncs, ends, ?_⟩
    rw [Option.toList_none, List.append_nil]
    exact ht.ignored hdone [event]
  · rename_i hdone
    have hopen := not_done hdone
    split at hr
    · cases hr
    · cases hr
      let kept := w.subscription.progress.filter fun _ preview => !finishes event preview.header
      let s : SessionEventSubscription := { w.subscription with progress := kept }
      have ha : w.subscription.Aside s none := aside_progress w.subscription kept
      have hquiet : s.Quiet := h.quiet.withProgress fun hs =>
        hs.subset fun _ _ hget => InsertionMap.get_filter_some hget
      have hs : Sound maximum ⟨s, w.notified, w.delivered⟩ := by
        have hs := h.aside ha hquiet
        rwa [Option.toList_none, List.append_nil, List.append_nil] at hs
      obtain ⟨live, resyncs, ends, ht⟩ := hs.told
      obtain ⟨live', resyncs', ht'⟩ := ht.pushed hquiet hopen event encodedBytes
      obtain ⟨hcounted, hquiet'⟩ := push_spec event encodedBytes hs.counted hopen
      exact ⟨hcounted, hquiet', live', resyncs', 0, ht'⟩

theorem Sound.next (h : w.Sound maximum) {heartbeat : Bool} {r : Outcome}
    (hr : w.subscription.next heartbeat = .ok r) :
    Sound maximum ⟨r.1, w.notified ++ [], w.delivered ++ r.2.toList⟩ := by
  obtain ⟨live, resyncs, ends, ht⟩ := h.told
  cases hqueue : w.subscription.queuedWakes with
  | cons queued rest =>
    unfold SessionEventSubscription.next at hr
    split at hr
    · rename_i queued' rest' hqueue'
      cases hr
      cases hqueue.symm.trans hqueue'
      have hsum := h.counted.bytes
      unfold queueBytes at hsum
      rw [hqueue, List.map_cons, List.sum_cons] at hsum
      refine ⟨⟨h.counted.budget, ?_, ?_⟩, fun hp => ?_, ?_⟩
      · unfold queueBytes
        dsimp only
        omega
      · exact Nat.le_trans (Nat.sub_le _ _) h.counted.bounded
      · have hempty := (h.quiet hp).1.queuedWakes
        rw [hqueue] at hempty
        cases hempty
      · rw [List.append_nil]
        obtain ⟨live', resyncs', ht'⟩ := ht.shifted hqueue
          (s := { w.subscription with queuedWakes := rest, queuedBytes := _ }) rfl rfl rfl
        exact ⟨live', resyncs', 0, ht'⟩
    · rename_i hnil
      rw [hqueue] at hnil
      cases hnil
  | nil =>
    by_cases hdone : (w.subscription.closed || w.subscription.resync) = true
    · have hr' : r = (w.subscription, some .ended) := by
        unfold SessionEventSubscription.next at hr
        rw [hqueue] at hr
        dsimp only at hr
        rw [if_pos hdone] at hr
        cases hr
        rfl
      subst hr'
      rw [List.append_nil]
      exact ⟨h.counted, h.quiet, live, resyncs, ends + 1, ht.finished hqueue hdone⟩
    · obtain ⟨ha, hq⟩ := next_spec h.quiet hqueue (not_done hdone) hr
      exact h.aside ha hq

theorem Sound.close (h : w.Sound maximum) :
    Sound maximum ⟨w.subscription.close.1, w.notified ++ [],
      w.delivered ++ w.subscription.close.2.toList⟩ := by
  obtain ⟨live, resyncs, ends, ht⟩ := h.told
  obtain ⟨ends', ht'⟩ := ht.closing
  rw [List.append_nil]
  obtain ⟨hcounted, hquiet⟩ := close_spec h.counted h.quiet
  exact ⟨hcounted, hquiet, live, resyncs, ends', ht'⟩

theorem Sound.askResync (h : w.Sound maximum) :
    Sound maximum ⟨w.subscription.askResync.1, w.notified ++ [],
      w.delivered ++ w.subscription.askResync.2.toList⟩ := by
  obtain ⟨live, resyncs, ends, ht⟩ := h.told
  by_cases hdone : (w.subscription.closed || w.subscription.resync) = true
  · have hsame : w.subscription.askResync = (w.subscription, none) := by
      unfold SessionEventSubscription.askResync
      rw [if_pos hdone]
    rw [hsame]
    exact h.aside (.refl _) h.quiet
  · have hopen := not_done hdone
    have hresync := askResync_spec hopen
    obtain ⟨resyncs', ht'⟩ := ht.resynced hopen []
    exact ⟨hresync.counted h.counted, quiet_of_none hresync.pendingRead, live, resyncs', 0, ht'⟩

theorem Sound.step (h : w.Sound maximum) (call : SubscriptionCall) : (w.step call).Sound maximum := by
  unfold Watch.step
  cases hr : w.subscription.apply call with
  | error => exact h
  | ok r =>
    cases call with
    | notifyEvent event encodedBytes => exact h.notifyEvent hr
    | notifyProgress progress =>
      obtain ⟨ha, hq⟩ := notifyProgress_spec h.quiet hr
      exact h.aside ha hq
    | forgetProgress operationId =>
      obtain ⟨ha, hq⟩ := forgetProgress_spec operationId h.quiet
      rw [← Except.ok.inj hr]
      exact h.aside ha hq
    | notifyObservation observation =>
      obtain ⟨ha, hq⟩ := notifyObservation_spec observation h.quiet
      rw [← Except.ok.inj hr]
      exact h.aside ha hq
    | notifyInputQueue inputQueue =>
      obtain ⟨ha, hq⟩ := notifyInputQueue_spec h.quiet hr
      exact h.aside ha hq
    | resync =>
      rw [← Except.ok.inj hr]
      exact h.askResync
    | next heartbeat => exact h.next hr
    | beat read =>
      obtain ⟨ha, hq⟩ := beat_spec read h.quiet
      rw [← Except.ok.inj hr]
      exact h.aside ha hq
    | close =>
      rw [← Except.ok.inj hr]
      exact h.close

theorem sound_opened (tenantId sessionId : JsString) (maximum : Nat) :
    (opened tenantId sessionId maximum).Sound maximum where
  counted := ⟨rfl, rfl, Nat.zero_le _⟩
  quiet := quiet_of_none rfl
  told := by
    refine ⟨[], 0, 0, rfl, ?_, List.prefix_refl _, Nat.zero_le 1, ?_, ?_, ?_, ?_, fun _ => rfl⟩
    · intro d hd
      cases hd
    · intro h
      cases h
    · intro h
      cases h
    · refine fun _ _ => ⟨rfl, ?_, rfl⟩
      intro q hq
      cases hq
    · intro _ h
      cases h

/-- The law of a subscription, whatever is called in whatever order. -/
theorem delivery_law (tenantId sessionId : JsString) (maximum : Nat)
    (calls : List SubscriptionCall) :
    ((opened tenantId sessionId maximum).run calls).Sound maximum := by
  have hrun : ∀ w : Watch, w.Sound maximum → (w.run calls).Sound maximum := by
    induction calls with
    | nil => exact fun w h => h
    | cons call calls ih => exact fun w h => ih _ (h.step call)
  exact hrun _ (sound_opened tenantId sessionId maximum)

/-- An event of two bytes overflows a budget of one; the subscription is closed before its resync
wake is read, and the reader is told the end without it. -/
theorem closed_before_resync :
    ¬ ∀ (tenantId sessionId : JsString) (maximum : Nat) (calls : List SubscriptionCall),
      ((opened tenantId sessionId maximum).run calls).subscription.resync = true →
      Delivered.ended ∈ ((opened tenantId sessionId maximum).run calls).delivered →
      Delivered.resync ∈ ((opened tenantId sessionId maximum).run calls).delivered := by
  intro h
  let event : PiCloudEvent := ⟨[], [], [], none, 1, [], .toolCallPreparing [] []⟩
  have hmem := h [] [] 1 [.notifyEvent event 2, .close, .next false] rfl (List.mem_singleton.mpr rfl)
  cases List.mem_singleton.mp hmem

end Watch

end Runtime
end PiCloud
