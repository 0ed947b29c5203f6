import PiCloud.Lib.InsertionMap
import PiCloud.Lib.Run

/-!
# Control.InputQueueView

`InputQueueView`: the first pages of the input queues that are being watched, read again after each
wake, and published to those who watch them.

* `State`, `notify`, `reset`, `take`: the view, with its pending wakes and its reads under way.
* `Action`, `system`: what can happen to it, in any order.
* `Trims`, `Pumps`, `Answered`: what the parts of a step can do.
* `Inv`: what holds in every reached state.
* `queue_view`: the bytes, the versions, the owners and the wakes of a run.
-/

namespace PiCloud
namespace Control
namespace Queues

open Lib

abbrev Key := Nat × Nat

/-- `tenant:session`, of two uuids -/
def key (tenant session : Nat) : Key := (tenant, session)

/-- `InputQueueResource`; `bytes` is the length of its JSON text. -/
structure Resource where
  sessionId : Nat
  viewVersion : Nat
  bytes : Nat
deriving DecidableEq

structure Cached where
  tenant : Nat
  value : Resource
  bytes : Nat
deriving DecidableEq

/-- `owner` stands for the function `current`, which tells whether this owner still is one. -/
structure Refresh where
  tenant : Nat
  session : Nat
  version : Nat
  owner : Nat
  generation : Nat
deriving DecidableEq

def Refresh.id (r : Refresh) : Key := key r.tenant r.session

/-- How far the task of a key is. -/
inductive Stage where
  | started (refresh : Refresh)
  /-- It waits for its read, which began when the store had version `stored`, after `wakes` wakes. -/
  | reading (refresh : Refresh) (stored wakes : Nat)
  | done
deriving DecidableEq

structure Options where
  maximumBytes : Nat := 64 * 1024 * 1024
  maximumQueues : Nat := 256
  concurrency : Nat := 2
  concurrency_pos : 0 < concurrency := by decide

/-- A call of `publish`, and how many wakes had been accepted when its read began. -/
structure Publication where
  refresh : Refresh
  value : Resource
  wakes : Nat
deriving DecidableEq

structure State where
  queues : InsertionMap Key Cached := {}
  pending : InsertionMap Key Refresh := {}
  active : InsertionMap Key Stage := {}
  bytes : Int := 0
  generation : Nat := 0
  version : Nat := 0
  closed : Bool := false
  /-- The owners that are current. -/
  held : Nat → Bool
  watched : Key → Bool
  /-- The view version that the database has of a queue. -/
  stored : Key → Nat
  /-- The calls of `unavailable`, newest first. -/
  unavailable : List Key := []
  /-- What was published, newest first. -/
  published : List Publication := []
  /-- The wakes that became pending, newest first. -/
  accepted : List Refresh := []
  /-- The versions of the wakes whose read failed. -/
  failed : List Nat := []
  /-- The versions of the wakes that lost their owner, generation or watchers at some time. -/
  lapsed : List Nat := []

namespace State

variable (o : Options) (s : State)

def remove (id : Key) : State :=
  { s with
    bytes := match s.queues.get id with
      | some old => s.bytes - old.bytes
      | none => s.bytes
    queues := s.queues.delete id }

def current (tenant session : Nat) : Option Resource :=
  (s.queues.get (key tenant session)).map Cached.value

def valid (refresh : Refresh) : Bool :=
  !s.closed && refresh.generation = s.generation && s.held refresh.owner

/-- `refresh` is valid, and its queue is watched. -/
def wanted (refresh : Refresh) : Bool := s.valid refresh && s.watched refresh.id

def pumpFrom : List (Key × Refresh) → State → State
  | [], s => s
  | (id, refresh) :: rest, s =>
    if o.concurrency ≤ s.active.size then s
    else if s.active.get id ≠ none then pumpFrom rest s
    else
      pumpFrom rest
        { s with pending := s.pending.delete id, active := s.active.set id (.started refresh) }

def pump : State := if s.closed then s else pumpFrom o s.pending.entries s

def dropUnwatched : State :=
  s.queues.entries.foldl
    (fun t e => if t.watched (key e.2.tenant e.2.value.sessionId) then t else t.remove e.1) s

def notify (tenant session owner : Nat) : State :=
  if s.closed || !s.held owner then s
  else
    let s := s.dropUnwatched
    let id := key tenant session
    if !s.watched id then s
    else if s.pending.get id = none ∧ o.maximumQueues ≤ s.pending.size then
      { s.remove id with unavailable := id :: s.unavailable }
    else
      let refresh := ⟨tenant, session, s.version + 1, owner, s.generation⟩
      pump o
        { s with
          pending := s.pending.set id refresh
          version := s.version + 1
          accepted := refresh :: s.accepted }

def lapse : State :=
  { s with lapsed := (s.accepted.filter fun w => !s.wanted w).map Refresh.version ++ s.lapsed }

def reset : State :=
  { s with generation := s.generation + 1, queues := {}, pending := {}, bytes := 0 }

def close : State := { s with closed := true }.reset

/-- `refresh`, up to its read -/
def enter (id : Key) (refresh : Refresh) : State :=
  if s.wanted refresh then
    { s with active := s.active.set id (.reading refresh (s.stored refresh.id) s.version) }
  else { s with active := s.active.set id .done }

/-- The first turn of a task. -/
def start (id : Key) : Option State :=
  match s.active.get id with
  | some (.started refresh) =>
    match s.pending.get id with
    | some latest =>
      if latest.generation = refresh.generation then
        some ({ s with pending := s.pending.delete id }.enter id latest)
      else some (s.enter id refresh)
    | none => some (s.enter id refresh)
  | _ => none

def evict (bytes : Nat) : Nat → State → State
  | 0, s => s
  | n + 1, s =>
    match s.queues.entries with
    | [] => s
    | (oldest, _) :: _ =>
      if (o.maximumBytes : Int) < s.bytes + bytes ∨ o.maximumQueues ≤ s.queues.size then
        evict bytes n (s.remove oldest)
      else s

def cache (id : Key) (tenant : Nat) (value : Resource) : State :=
  let s := s.remove id
  let s := evict o value.bytes s.queues.size s
  if value.bytes ≤ o.maximumBytes then
    { s with queues := s.queues.set id ⟨tenant, value, value.bytes⟩, bytes := s.bytes + value.bytes }
  else s

/-- The `catch` of `refresh`. -/
def fail (id : Key) (refresh : Refresh) : State :=
  let s := { s with failed := refresh.version :: s.failed }
  if s.valid refresh then { s.remove id with unavailable := id :: s.unavailable } else s

/-- `refresh` after its read; `publishes` tells whether `publish` returns. -/
def take (id : Key) (refresh : Refresh) (wakes : Nat) (value : Resource) (publishes : Bool) : State :=
  if !s.wanted refresh then s
  else if value.sessionId ≠ refresh.session then s.fail id refresh
  -- a newer wake has its own read
  else if (s.pending.get id).any fun pending => refresh.version < pending.version then s
  else if (s.queues.get id).any fun old => value.viewVersion < old.value.viewVersion then s
  else
    let s := s.cache o id refresh.tenant value
    if publishes then { s with published := ⟨refresh, value, wakes⟩ :: s.published }
    else s.fail id refresh

inductive Outcome where
  | failed
  | value (value : Resource) (publishes : Bool)
deriving DecidableEq

/-- The read of a task ends. It is a snapshot of the database at some time since it began. -/
def answer (id : Key) (outcome : Outcome) : Option State :=
  match s.active.get id with
  | some (.reading refresh stored wakes) =>
    let s := { s with active := s.active.set id .done }
    match outcome with
    | .failed => some (s.fail id refresh)
    | .value value publishes =>
      if value.sessionId = refresh.session →
          stored ≤ value.viewVersion ∧ value.viewVersion ≤ s.stored refresh.id then
        some (s.take o id refresh wakes value publishes)
      else none
  | _ => none

/-- The `finally` of a task. -/
def finish (id : Key) : Option State :=
  if s.active.get id = some .done then some (pump o { s with active := s.active.delete id })
  else none

def lastWake (id : Key) : Option Refresh := s.accepted.find? fun w => w.id = id

def lastPublished (id : Key) : Option Publication := s.published.find? fun p => p.refresh.id = id

end State

open State

inductive Action where
  | notify (tenant session owner : Nat)
  | start (id : Key)
  | answer (id : Key) (outcome : Outcome)
  | finish (id : Key)
  | reset
  | close
  /-- Owners come and go. -/
  | own (held : Nat → Bool)
  /-- Subscribers come and go. -/
  | watch (watched : Key → Bool)
  /-- A queue changes in the database. -/
  | store (id : Key) (version : Nat)

def act (o : Options) (s : State) : Action → Option State
  | .notify tenant session owner => some (s.notify o tenant session owner)
  | .start id => s.start id
  | .answer id outcome => s.answer o id outcome
  | .finish id => s.finish o id
  | .reset => some s.reset.lapse
  | .close => some s.close.lapse
  | .own held => some { s with held := held }.lapse
  | .watch watched => some { s with watched := watched }.lapse
  | .store id version =>
    if s.stored id ≤ version then
      some { s with stored := fun j => if j = id then version else s.stored j }
    else none

def system (o : Options) : System State Action where
  init s := ∃ held watched stored, s = { held := held, watched := watched, stored := stored }
  step s a t := act o s a = some t

/-! ## The cache -/

def Exact (s : State) : Prop := s.bytes = s.queues.sum Cached.bytes

/-- `t` is `s` without some of its cached queues. -/
structure Trims (s t : State) : Prop where
  rest : t = { s with queues := t.queues, bytes := t.bytes }
  cached : ∀ {id c}, t.queues.get id = some c → s.queues.get id = some c
  exact : Exact s → Exact t
  bytes : Exact s → t.bytes ≤ s.bytes

theorem Trims.refl (s : State) : Trims s s := ⟨rfl, id, id, fun _ => Int.le_refl _⟩

theorem Trims.trans {s t u : State} (h : Trims s t) (h' : Trims t u) : Trims s u where
  rest := by rw [h'.rest, h.rest]
  cached hc := h.cached (h'.cached hc)
  exact hs := h'.exact (h.exact hs)
  bytes hs := Int.le_trans (h'.bytes (h.exact hs)) (h.bytes hs)

theorem trims_remove (s : State) (id : Key) : Trims s (s.remove id) := by
  have hbytes : Exact s → Exact (s.remove id) ∧ (s.remove id).bytes ≤ s.bytes := by
    intro hs
    unfold Exact remove at *
    cases hold : s.queues.get id with
    | none =>
      have hdelete : (s.queues.delete id).entries = s.queues.entries := by
        refine List.filter_eq_self.mpr fun e he => decide_eq_true fun heq => ?_
        exact InsertionMap.get_eq_none.mp hold (heq ▸ List.mem_map_of_mem he)
      unfold InsertionMap.sum
      rw [hdelete]
      exact ⟨hs, Int.le_refl _⟩
    | some old =>
      have hsum := InsertionMap.sum_delete (f := Cached.bytes) hold
      dsimp only
      omega
  exact ⟨rfl, InsertionMap.get_delete_some, fun hs => (hbytes hs).1, fun hs => (hbytes hs).2⟩

theorem trims_dropUnwatched (s : State) : Trims s s.dropUnwatched := by
  unfold dropUnwatched
  have hfold : ∀ (entries : List (Key × Cached)) (t : State), Trims s t →
      Trims s (entries.foldl
        (fun t e => if t.watched (key e.2.tenant e.2.value.sessionId) then t else t.remove e.1) t) := by
    intro entries
    induction entries with
    | nil => exact fun t ht => ht
    | cons e entries ih =>
      intro t ht
      rw [List.foldl_cons]
      refine ih _ ?_
      split
      · exact ht
      · exact ht.trans (trims_remove t e.1)
  exact hfold _ s (.refl s)

theorem trims_evict (o : Options) (bytes : Nat) (n : Nat) (s : State) :
    Trims s (evict o bytes n s) := by
  induction n generalizing s with
  | zero => exact .refl s
  | succ n ih =>
    unfold evict
    split
    · exact .refl s
    · split
      · exact (trims_remove s _).trans (ih _)
      · exact .refl s

theorem size_remove {s : State} {id : Key} {c : Cached} (h : s.queues.get id = some c) :
    (s.remove id).queues.size < s.queues.size := by
  refine List.length_filter_lt_length_iff_exists.mpr ⟨(id, c), InsertionMap.mem_entries.mpr h, ?_⟩
  simp

theorem evict_fits (o : Options) (bytes : Nat) (n : Nat) (s : State) (hn : s.queues.size ≤ n) :
    (evict o bytes n s).queues.entries = [] ∨
      (evict o bytes n s).bytes + bytes ≤ o.maximumBytes := by
  induction n generalizing s with
  | zero => exact .inl (List.length_eq_zero_iff.mp (Nat.le_zero.mp hn))
  | succ n ih =>
    unfold evict
    split
    · rename_i hnil
      exact .inl hnil
    · rename_i oldest c rest hentries
      split
      · refine ih _ ?_
        have hget : s.queues.get oldest = some c := by
          rw [← InsertionMap.mem_entries, hentries]
          exact List.mem_cons_self
        have := size_remove hget
        omega
      · rename_i hfits
        exact .inr (by omega)

/-- What `cache` leaves. -/
structure Caches (o : Options) (id : Key) (value : Resource) (s t : State) : Prop where
  rest : t = { s with queues := t.queues, bytes := t.bytes }
  cached : ∀ {j c}, t.queues.get j = some c → s.queues.get j = some c ∨ j = id ∧ c.value = value
  exact : Exact s → Exact t
  bytes : Exact s → s.bytes ≤ o.maximumBytes → t.bytes ≤ o.maximumBytes

theorem caches_cache (o : Options) (s : State) (id : Key) (tenant : Nat) (value : Resource) :
    Caches o id value s (s.cache o id tenant value) := by
  have htrims := (trims_remove s id).trans
    (trims_evict o value.bytes (s.remove id).queues.size (s.remove id))
  have hfits := evict_fits o value.bytes (s.remove id).queues.size (s.remove id) (Nat.le_refl _)
  have hnone : (evict o value.bytes (s.remove id).queues.size (s.remove id)).queues.get id = none := by
    cases hget : (evict o value.bytes (s.remove id).queues.size (s.remove id)).queues.get id with
    | none => rfl
    | some c =>
      have := (trims_evict o value.bytes _ _).cached hget
      unfold remove at this
      rw [InsertionMap.get_delete, if_pos rfl] at this
      cases this
  unfold cache
  dsimp only
  generalize evict o value.bytes (s.remove id).queues.size (s.remove id) = t at htrims hfits hnone
  split
  · rename_i hsmall
    constructor
    · dsimp only
      rw [htrims.rest]
    · intro j c hc
      dsimp only at hc
      rw [InsertionMap.get_set] at hc
      split at hc
      · cases hc
        exact .inr ⟨‹_›, rfl⟩
      · exact .inl (htrims.cached hc)
    · intro hs
      have ht : t.bytes = _ := htrims.exact hs
      unfold Exact
      dsimp only
      rw [InsertionMap.sum_set _ _ _ hnone, ht, Int.natCast_add]
    · intro hs _
      have ht : t.bytes = t.queues.sum Cached.bytes := htrims.exact hs
      dsimp only
      obtain hnil | hle := hfits
      · unfold InsertionMap.sum at ht
        rw [hnil] at ht
        simp only [List.map_nil, List.sum_nil] at ht
        omega
      · exact hle
  · refine ⟨htrims.rest, fun hc => .inl (htrims.cached hc), htrims.exact, fun hs hle => ?_⟩
    exact Int.le_trans (htrims.bytes hs) hle

/-! ## The tasks -/

/-- What `pump` does: some pending wakes become tasks. -/
structure Pumps (s t : State) : Prop where
  rest : t = { s with pending := t.pending, active := t.active }
  each : ∀ id, (t.pending.get id = s.pending.get id ∧ t.active.get id = s.active.get id) ∨
    ∃ r, s.pending.get id = some r ∧ s.active.get id = none ∧
      t.pending.get id = none ∧ t.active.get id = some (.started r)

theorem Pumps.refl (s : State) : Pumps s s := ⟨rfl, fun _ => .inl ⟨rfl, rfl⟩⟩

theorem Pumps.trans {s t u : State} (h : Pumps s t) (h' : Pumps t u) : Pumps s u where
  rest := by rw [h'.rest, h.rest]
  each id := by
    obtain ⟨hp, ha⟩ | ⟨r, hp, ha, hp', ha'⟩ := h.each id
    · rw [← hp, ← ha]
      exact h'.each id
    · obtain ⟨hq, hb⟩ | ⟨r', hq, -⟩ := h'.each id
      · exact .inr ⟨r, hp, ha, hq.trans hp', hb.trans ha'⟩
      · rw [hp'] at hq
        cases hq

theorem Pumps.pending {s t : State} (h : Pumps s t) {id : Key} {r : Refresh}
    (hr : t.pending.get id = some r) :
    s.pending.get id = some r ∧ t.active.get id = s.active.get id := by
  obtain ⟨hp, ha⟩ | ⟨r', -, -, hp, -⟩ := h.each id
  · exact ⟨hp ▸ hr, ha⟩
  · rw [hp] at hr
    cases hr

theorem Pumps.started {s t : State} (h : Pumps s t) {id : Key} {r : Refresh}
    (hr : t.active.get id = some (.started r)) :
    s.active.get id = some (.started r) ∨ s.pending.get id = some r := by
  obtain ⟨-, ha⟩ | ⟨r', hp, -, -, ha⟩ := h.each id
  · exact .inl (ha ▸ hr)
  · rw [ha] at hr
    cases hr
    exact .inr hp

theorem Pumps.reading {s t : State} (h : Pumps s t) {id : Key} {r : Refresh} {n k : Nat}
    (hr : t.active.get id = some (.reading r n k)) : s.active.get id = some (.reading r n k) := by
  obtain ⟨-, ha⟩ | ⟨r', -, -, -, ha⟩ := h.each id
  · exact ha ▸ hr
  · rw [ha] at hr
    cases hr

def Busy (o : Options) (s : State) (id : Key) : Prop :=
  s.active.get id ≠ none ∨ o.concurrency ≤ s.active.size

theorem size_set_le (m : InsertionMap Key Stage) (id : Key) (stage : Stage) :
    m.size ≤ (m.set id stage).size := by
  have hsize : ∀ m : InsertionMap Key Stage, (m.entries.map Prod.fst).length = m.size :=
    fun m => List.length_map _
  rw [← hsize, ← hsize]
  cases hget : m.get id with
  | none =>
    rw [InsertionMap.keys_set_of_none m stage hget, List.length_append]
    exact Nat.le_add_right _ _
  | some _ =>
    exact Nat.le_of_eq (by rw [InsertionMap.keys_set_of_some m stage (by rw [hget]; nofun)])

theorem Busy.set {o : Options} {s : State} {id : Key} (h : Busy o s id) (j : Key) (stage : Stage) :
    Busy o { s with active := s.active.set j stage } id := by
  obtain hget | hsize := h
  · left
    dsimp only
    rw [InsertionMap.get_set]
    split
    · rintro ⟨⟩
    · exact hget
  · exact .inr (Nat.le_trans hsize (size_set_le _ _ _))

theorem pumpFrom_spec (o : Options) (entries : List (Key × Refresh)) (s : State)
    (hnodup : (entries.map Prod.fst).Nodup)
    (hentries : ∀ e ∈ entries, s.pending.get e.1 = some e.2) :
    Pumps s (pumpFrom o entries s) ∧
      (∀ id, Busy o s id → Busy o (pumpFrom o entries s) id) ∧
      ∀ e ∈ entries, Busy o (pumpFrom o entries s) e.1 := by
  induction entries generalizing s with
  | nil => exact ⟨.refl s, fun _ h => h, nofun⟩
  | cons e entries ih =>
    obtain ⟨id, refresh⟩ := e
    rw [List.map_cons, List.nodup_cons] at hnodup
    have hpending := hentries _ List.mem_cons_self
    unfold pumpFrom
    split
    · rename_i hfull
      exact ⟨.refl s, fun _ h => h, fun _ _ => .inr hfull⟩
    · split
      · rename_i hactive
        obtain ⟨hpumps, hbusy, hall⟩ :=
          ih s hnodup.2 fun e he => hentries e (List.mem_cons_of_mem _ he)
        refine ⟨hpumps, hbusy, fun e he => ?_⟩
        obtain rfl | he := List.mem_cons.mp he
        · exact hbusy _ (.inl hactive)
        · exact hall e he
      · rename_i hactive
        have hnone : s.active.get id = none := not_not.mp hactive
        obtain ⟨hpumps, hbusy, hall⟩ := ih
          { s with pending := s.pending.delete id, active := s.active.set id (.started refresh) }
          hnodup.2 fun e he => by
            dsimp only
            have hne : e.1 ≠ id := fun heq => hnodup.1 (List.mem_map.mpr ⟨e, he, heq⟩)
            rw [InsertionMap.get_delete, if_neg hne, hentries e (List.mem_cons_of_mem _ he)]
        have hstep : Pumps s
            { s with pending := s.pending.delete id, active := s.active.set id (.started refresh) } := by
          refine ⟨rfl, fun j => ?_⟩
          dsimp only
          rw [InsertionMap.get_delete, InsertionMap.get_set]
          by_cases hj : j = id
          · subst hj
            rw [if_pos rfl, if_pos rfl]
            exact .inr ⟨refresh, hpending, hnone, rfl, rfl⟩
          · rw [if_neg hj, if_neg hj]
            exact .inl ⟨rfl, rfl⟩
        refine ⟨hstep.trans hpumps, fun j hj => hbusy j ?_, fun e he => ?_⟩
        · exact hj.set id (.started refresh)
        · obtain rfl | he := List.mem_cons.mp he
          · refine hbusy _ (.inl ?_)
            dsimp only
            rw [InsertionMap.get_set_self]
            nofun
          · exact hall e he

theorem pumps_pump (o : Options) (s : State) : Pumps s (s.pump o) := by
  unfold pump
  split
  · exact .refl s
  · exact (pumpFrom_spec o s.pending.entries s s.pending.nodup
      fun e he => InsertionMap.mem_entries.mp he).1

def Drained (o : Options) (s : State) : Prop :=
  ∀ id, s.pending.get id ≠ none → s.closed = false ∧ Busy o s id

theorem drained_pump (o : Options) {s : State} (hclosed : s.closed = false) :
    Drained o (s.pump o) := by
  have hpumps := pumps_pump o s
  intro id hid
  obtain ⟨r, hr⟩ := Option.ne_none_iff_exists'.mp hid
  have hpending := (hpumps.pending hr).1
  constructor
  · rw [hpumps.rest]
    exact hclosed
  · unfold pump
    rw [if_neg (by simp [hclosed])]
    exact (pumpFrom_spec o s.pending.entries s s.pending.nodup
      fun e he => InsertionMap.mem_entries.mp he).2.2 (id, r) (InsertionMap.mem_entries.mpr hpending)

/-- What `answer` does, for the read `r` of a task. -/
inductive Answered (o : Options) (s : State) (id : Key) (r : Refresh) (n k : Nat) : State → Prop where
  | unwanted : s.wanted r = false → Answered o s id r n k { s with active := s.active.set id .done }
  | failed : Answered o s id r n k ({ s with active := s.active.set id .done }.fail id r)
  | overtaken {l : Refresh} : s.pending.get id = some l → r.version < l.version →
    Answered o s id r n k { s with active := s.active.set id .done }
  | older {c : Cached} {v : Resource} : s.queues.get id = some c → n ≤ v.viewVersion →
    v.viewVersion < c.value.viewVersion →
    Answered o s id r n k { s with active := s.active.set id .done }
  | published {v : Resource} {t : State} : s.wanted r = true → n ≤ v.viewVersion →
    v.viewVersion ≤ s.stored r.id → Caches o id v { s with active := s.active.set id .done } t →
    Answered o s id r n k { t with published := ⟨r, v, k⟩ :: t.published }
  | unpublished {v : Resource} {t : State} : n ≤ v.viewVersion → v.viewVersion ≤ s.stored r.id →
    Caches o id v { s with active := s.active.set id .done } t → Answered o s id r n k (t.fail id r)

theorem answered {o : Options} {s t : State} {id : Key} {outcome : Outcome}
    (h : s.answer o id outcome = some t) :
    ∃ r n k, s.active.get id = some (.reading r n k) ∧ Answered o s id r n k t := by
  unfold answer at h
  split at h
  · rename_i r n k hactive
    refine ⟨r, n, k, hactive, ?_⟩
    cases outcome with
    | failed =>
      cases h
      exact .failed
    | value v publishes =>
      obtain ⟨hread, rfl⟩ := ite_some h
      unfold take
      split
      · rename_i hwanted
        refine .unwanted ?_
        rw [Bool.not_eq_true'] at hwanted
        exact hwanted
      · rename_i hwanted
        split
        · exact .failed
        · rename_i hscope
          obtain ⟨hle, hge⟩ := hread (not_not.mp hscope)
          split
          · rename_i hnewer
            obtain ⟨l, hl, hlt⟩ := (Option.any_eq_true _ _).mp hnewer
            exact .overtaken hl (by simpa using hlt)
          · split
            · rename_i hold
              obtain ⟨c, hc, hlt⟩ := (Option.any_eq_true _ _).mp hold
              exact .older hc hle (by simpa using hlt)
            · have hcaches := caches_cache o { s with active := s.active.set id .done } id r.tenant v
              dsimp only
              split
              · rw [Bool.not_eq_true', Bool.not_eq_false] at hwanted
                exact .published hwanted hle hge hcaches
              · exact .unpublished hle hge hcaches
  · cases h

/-! ## The invariant -/

/-- Nothing older than version `n` of a queue is read from now on. -/
structure Seen (s : State) (id : Key) (n : Nat) : Prop where
  stored : n ≤ s.stored id
  reading : ∀ {r m k}, s.active.get id = some (.reading r m k) → n ≤ m

/-- What was last published of a queue was read after `w`, as will be all that is read from now on. -/
structure Served (s : State) (id : Key) (w : Refresh) : Prop where
  published : ∃ p, s.lastPublished id = some p ∧ w.version ≤ p.wakes
  reading : ∀ {r m k}, s.active.get id = some (.reading r m k) → w.version ≤ k

/-- Where the wake `w` of a queue is. -/
inductive Covered (s : State) (id : Key) (w : Refresh) : Prop where
  | pending : s.pending.get id = some w → Covered s id w
  | started : s.pending.get id = none → s.active.get id = some (.started w) → Covered s id w
  | reading {n k : Nat} : s.pending.get id = none → s.active.get id = some (.reading w n k) →
    w.version ≤ k → Covered s id w
  | served : Served s id w → Covered s id w

/-- The wake of a task or of a pending entry is one of this key. -/
structure Mine (s : State) (id : Key) (r : Refresh) : Prop where
  accepted : r ∈ s.accepted
  id : r.id = id

structure Core (o : Options) (s : State) : Prop where
  exact : Exact s
  bytes : s.bytes ≤ o.maximumBytes
  pending : ∀ {id r}, s.pending.get id = some r → Mine s id r
  started : ∀ {id r}, s.active.get id = some (.started r) → Mine s id r
  reading : ∀ {id r n k}, s.active.get id = some (.reading r n k) → Mine s id r ∧ n ≤ s.stored id
  issued : ∀ w ∈ s.accepted, w.version ≤ s.version ∧ w.generation ≤ s.generation
  lasting : ∀ w ∈ s.accepted, w.version ∉ s.lapsed → s.wanted w = true
  cached_seen : ∀ {id c}, s.queues.get id = some c → Seen s id c.value.viewVersion
  published_seen : ∀ p ∈ s.published, Seen s p.refresh.id p.value.viewVersion
  ordered : s.published.Pairwise fun p q =>
    p.refresh.id = q.refresh.id → q.value.viewVersion ≤ p.value.viewVersion
  covered : ∀ {id w}, s.lastWake id = some w → w.version ∉ s.failed → w.version ∉ s.lapsed →
    Covered s id w

structure Inv (o : Options) (s : State) : Prop extends Core o s where
  drained : Drained o s

variable {o : Options} {s t : State}

theorem Core.recache (h : Core o s)
    (hrest : t = { s with queues := t.queues, bytes := t.bytes, unavailable := t.unavailable })
    (hexact : Exact t) (hbytes : t.bytes ≤ o.maximumBytes)
    (hcached : ∀ {id c}, t.queues.get id = some c → Seen s id c.value.viewVersion) : Core o t := by
  rw [hrest]
  exact {
    exact := hexact
    bytes := hbytes
    pending := fun hr => ⟨(h.pending hr).accepted, (h.pending hr).id⟩
    started := fun hr => ⟨(h.started hr).accepted, (h.started hr).id⟩
    reading := fun hr => ⟨⟨(h.reading hr).1.accepted, (h.reading hr).1.id⟩, (h.reading hr).2⟩
    issued := h.issued
    lasting := h.lasting
    cached_seen := fun hc => ⟨(hcached hc).stored, (hcached hc).reading⟩
    published_seen := fun p hp => ⟨(h.published_seen p hp).stored, (h.published_seen p hp).reading⟩
    ordered := h.ordered
    covered := fun hw hf hl => match h.covered hw hf hl with
      | .pending hr => .pending hr
      | .started hn hr => .started hn hr
      | .reading hn hr hk => .reading hn hr hk
      | .served hs => .served ⟨hs.published, hs.reading⟩ }

theorem Core.trims (h : Core o s) (ht : Trims s t) : Core o t :=
  h.recache (by rw [ht.rest]) (ht.exact h.exact) (Int.le_trans (ht.bytes h.exact) h.bytes)
    fun hc => h.cached_seen (ht.cached hc)

theorem Core.unavailable (h : Core o s) (ids : List Key) : Core o { s with unavailable := ids } :=
  h.recache rfl h.exact h.bytes h.cached_seen

theorem Core.pumps (h : Core o s) (ht : Pumps s t) : Core o t := by
  have hmine : ∀ {id r}, t.active.get id = some (.started r) → Mine s id r := by
    intro id r hr
    obtain hs | hp := ht.started hr
    · exact h.started hs
    · exact h.pending hp
  have hpending : ∀ {id r}, t.pending.get id = some r → Mine s id r :=
    fun hr => h.pending (ht.pending hr).1
  have hreading : ∀ {id r n k}, t.active.get id = some (.reading r n k) →
      s.active.get id = some (.reading r n k) := fun hr => ht.reading hr
  have hcovered : ∀ {id w}, Covered s id w → Covered { s with pending := t.pending, active := t.active } id w := by
    intro id w hc
    cases hc with
    | pending hw =>
      obtain ⟨hp, -⟩ | ⟨r, hr, -, hp, ha⟩ := ht.each id
      · exact .pending (hp.trans hw)
      · rw [hw] at hr
        cases hr
        exact .started hp ha
    | started hn hw =>
      obtain ⟨hp, ha⟩ | ⟨r, hr, -⟩ := ht.each id
      · exact .started (hp.trans hn) (ha.trans hw)
      · rw [hn] at hr
        cases hr
    | reading hn hw hk =>
      obtain ⟨hp, ha⟩ | ⟨r, hr, -⟩ := ht.each id
      · exact .reading (hp.trans hn) (ha.trans hw) hk
      · rw [hn] at hr
        cases hr
    | served hs => exact .served ⟨hs.published, fun hr => hs.reading (hreading hr)⟩
  rw [ht.rest]
  exact {
    exact := h.exact
    bytes := h.bytes
    pending := fun hr => ⟨(hpending hr).accepted, (hpending hr).id⟩
    started := fun hr => ⟨(hmine hr).accepted, (hmine hr).id⟩
    reading := fun hr => ⟨⟨(h.reading (hreading hr)).1.accepted, (h.reading (hreading hr)).1.id⟩,
      (h.reading (hreading hr)).2⟩
    issued := h.issued
    lasting := h.lasting
    cached_seen := fun hc => ⟨(h.cached_seen hc).stored, fun hr => (h.cached_seen hc).reading (hreading hr)⟩
    published_seen := fun p hp => ⟨(h.published_seen p hp).stored,
      fun hr => (h.published_seen p hp).reading (hreading hr)⟩
    ordered := h.ordered
    covered := fun hw hf hl => hcovered (h.covered hw hf hl) }

theorem Core.turn (h : Core o s) {id : Key} {pending : InsertionMap Key Refresh}
    {active : InsertionMap Key Stage} (hpending : ∀ j, j ≠ id → pending.get j = s.pending.get j)
    (hactive : ∀ j, j ≠ id → active.get j = s.active.get j)
    (hmine : ∀ {r}, pending.get id = some r → s.pending.get id = some r)
    (hstarted : ∀ {r}, active.get id ≠ some (.started r))
    (hreading : ∀ {r n k}, active.get id = some (.reading r n k) →
      Mine s id r ∧ n = s.stored id ∧ k = s.version)
    (hcovered : ∀ {w}, s.lastWake id = some w → w.version ∉ s.failed → w.version ∉ s.lapsed →
      ¬ Served s id w → Covered { s with pending := pending, active := active } id w) :
    Core o { s with pending := pending, active := active } := by
  have hseen : ∀ {j n}, Seen s j n → Seen { s with pending := pending, active := active } j n := by
    intro j n hn
    refine ⟨hn.stored, fun hr => ?_⟩
    by_cases hj : j = id
    · subst hj
      obtain ⟨-, rfl, -⟩ := hreading hr
      exact hn.stored
    · exact hn.reading (hactive j hj ▸ hr)
  have hpend : ∀ {j r}, pending.get j = some r → s.pending.get j = some r := by
    intro j r hr
    by_cases hj : j = id
    · subst hj
      exact hmine hr
    · exact hpending j hj ▸ hr
  constructor
  · exact h.exact
  · exact h.bytes
  · intro j r hr
    exact ⟨(h.pending (hpend hr)).accepted, (h.pending (hpend hr)).id⟩
  · intro j r hr
    by_cases hj : j = id
    · subst hj
      exact absurd hr hstarted
    · have hm := h.started (hactive j hj ▸ hr)
      exact ⟨hm.accepted, hm.id⟩
  · intro j r n k hr
    by_cases hj : j = id
    · subst hj
      obtain ⟨hm, rfl, -⟩ := hreading hr
      exact ⟨⟨hm.accepted, hm.id⟩, Nat.le_refl _⟩
    · obtain ⟨hm, hn⟩ := h.reading (hactive j hj ▸ hr)
      exact ⟨⟨hm.accepted, hm.id⟩, hn⟩
  · exact h.issued
  · exact h.lasting
  · exact fun hc => hseen (h.cached_seen hc)
  · exact fun p hp => hseen (h.published_seen p hp)
  · exact h.ordered
  · intro j w hw hf hl
    by_cases hj : j = id
    · subst hj
      by_cases hserved : Served s j w
      · refine .served ⟨hserved.published, fun hr => ?_⟩
        obtain ⟨-, -, rfl⟩ := hreading hr
        exact (h.issued w (List.mem_of_find?_eq_some hw)).1
      · exact hcovered hw hf hl hserved
    · cases h.covered hw hf hl with
      | pending hr => exact .pending ((hpending j hj).trans hr)
      | started hn hr => exact .started ((hpending j hj).trans hn) ((hactive j hj).trans hr)
      | reading hn hr hk => exact .reading ((hpending j hj).trans hn) ((hactive j hj).trans hr) hk
      | served hs =>
        exact .served ⟨hs.published, fun hr => hs.reading (hactive j hj ▸ hr)⟩

theorem Core.fails (h : Core o s) (version : Nat) :
    Core o { s with failed := version :: s.failed } where
  exact := h.exact
  bytes := h.bytes
  pending hr := ⟨(h.pending hr).accepted, (h.pending hr).id⟩
  started hr := ⟨(h.started hr).accepted, (h.started hr).id⟩
  reading hr := ⟨⟨(h.reading hr).1.accepted, (h.reading hr).1.id⟩, (h.reading hr).2⟩
  issued := h.issued
  lasting := h.lasting
  cached_seen hc := ⟨(h.cached_seen hc).stored, (h.cached_seen hc).reading⟩
  published_seen p hp := ⟨(h.published_seen p hp).stored, (h.published_seen p hp).reading⟩
  ordered := h.ordered
  covered hw hf hl := match h.covered hw (fun hin => hf (List.mem_cons_of_mem _ hin)) hl with
    | .pending hr => .pending hr
    | .started hn hr => .started hn hr
    | .reading hn hr hk => .reading hn hr hk
    | .served hs => .served ⟨hs.published, hs.reading⟩

/-! ## The steps -/

theorem Core.fail {id : Key} {r : Refresh}
    (h : Core o { s with failed := r.version :: s.failed }) : Core o (s.fail id r) := by
  unfold State.fail
  dsimp only
  split
  · exact (h.trims (trims_remove _ id)).unavailable _
  · exact h

theorem Core.enter (h : Core o s) {id : Key} {r : Refresh} {pending : InsertionMap Key Refresh}
    (hpending : ∀ j, j ≠ id → pending.get j = s.pending.get j)
    (hsub : ∀ {l}, pending.get id = some l → s.pending.get id = some l) (hr : Mine s id r)
    (hcovered : ∀ {w}, s.lastWake id = some w → w.version ∉ s.failed → w.version ∉ s.lapsed →
      ¬ Served s id w → pending.get id = some w ∨ pending.get id = none ∧ w = r) :
    Core o ({ s with pending := pending }.enter id r) := by
  unfold State.enter
  split
  · refine h.turn hpending (fun j hj => InsertionMap.get_set_ne _ _ hj) hsub (fun hs => ?_)
      (fun hs => ?_) (fun hw hf hl hn => ?_)
    · rw [InsertionMap.get_set_self] at hs
      cases hs
    · rw [InsertionMap.get_set_self] at hs
      cases hs
      exact ⟨hr, congrArg s.stored hr.id, rfl⟩
    · obtain hp | ⟨hp, rfl⟩ := hcovered hw hf hl hn
      · exact .pending hp
      · exact .reading hp (InsertionMap.get_set_self _ _ _)
          (h.issued _ (List.mem_of_find?_eq_some hw)).1
  · rename_i hunwanted
    refine h.turn hpending (fun j hj => InsertionMap.get_set_ne _ _ hj) hsub (fun hs => ?_)
      (fun hs => ?_) (fun hw hf hl hn => ?_)
    · rw [InsertionMap.get_set_self] at hs
      cases hs
    · rw [InsertionMap.get_set_self] at hs
      cases hs
    · obtain hp | ⟨-, rfl⟩ := hcovered hw hf hl hn
      · exact .pending hp
      · exact absurd (h.lasting _ (List.mem_of_find?_eq_some hw) hl) hunwanted

theorem Drained.enter (h : Drained o s) {id : Key} {r : Refresh} {pending : InsertionMap Key Refresh}
    (hsub : ∀ {j l}, pending.get j = some l → s.pending.get j = some l) :
    Drained o ({ s with pending := pending }.enter id r) := by
  have hbusy : ∀ stage, Drained o { s with pending := pending, active := s.active.set id stage } := by
    intro stage j hj
    obtain ⟨l, hl⟩ := Option.ne_none_iff_exists'.mp hj
    obtain ⟨hclosed, hb⟩ := h j (by rw [hsub hl]; nofun)
    exact ⟨hclosed, hb.set id stage⟩
  unfold State.enter
  split
  · exact hbusy _
  · exact hbusy _

theorem Inv.start (h : Inv o s) {id : Key} (hs : s.start id = some t) : Inv o t := by
  unfold State.start at hs
  split at hs
  · rename_i r hactive
    have hr := h.started hactive
    split at hs
    · rename_i latest hlatest
      split at hs
      · cases hs
        refine ⟨h.toCore.enter (fun j hj => ?_) (fun hl => ?_) (h.pending hlatest)
          (fun hw hf hl hn => ?_), h.drained.enter fun hl => InsertionMap.get_delete_some hl⟩
        · rw [InsertionMap.get_delete, if_neg hj]
        · exact InsertionMap.get_delete_some hl
        · cases h.covered hw hf hl with
          | pending hp =>
            rw [hlatest] at hp
            cases hp
            exact .inr ⟨by rw [InsertionMap.get_delete, if_pos rfl], rfl⟩
          | started hp _ =>
            rw [hlatest] at hp
            cases hp
          | reading hp _ _ =>
            rw [hlatest] at hp
            cases hp
          | served hserved => exact absurd hserved hn
      · cases hs
        refine ⟨h.toCore.enter (fun _ _ => rfl) (fun hl => hl) hr (fun hw hf hl hn => ?_),
          h.drained.enter fun hl => hl⟩
        cases h.covered hw hf hl with
        | pending hp => exact .inl hp
        | started hp _ =>
          rw [hlatest] at hp
          cases hp
        | reading hp _ _ =>
          rw [hlatest] at hp
          cases hp
        | served hserved => exact absurd hserved hn
    · rename_i hnone
      cases hs
      refine ⟨h.toCore.enter (fun _ _ => rfl) (fun hl => hl) hr (fun hw hf hl hn => ?_),
        h.drained.enter fun hl => hl⟩
      cases h.covered hw hf hl with
      | pending hp => exact .inl hp
      | started hp ha =>
        rw [hactive] at ha
        cases ha
        exact .inr ⟨hp, rfl⟩
      | reading _ ha _ =>
        rw [hactive] at ha
        cases ha
      | served hserved => exact absurd hserved hn
  · cases hs

/-- The task of `id` has ended with no view, but the last wake of `id` is none that this loses. -/
theorem Core.done (h : Core o s) {id : Key} {r : Refresh} {n k : Nat}
    (hactive : s.active.get id = some (.reading r n k))
    (hlost : s.lastWake id = some r → r.version ∉ s.failed → r.version ∉ s.lapsed →
      s.pending.get id = none → False) :
    Core o { s with active := s.active.set id .done } := by
  refine h.turn (fun _ _ => rfl) (fun j hj => InsertionMap.get_set_ne _ _ hj) (fun hl => hl)
    (fun hs => ?_) (fun hs => ?_) (fun hw hf hl hn => ?_)
  · rw [InsertionMap.get_set_self] at hs
    cases hs
  · rw [InsertionMap.get_set_self] at hs
    cases hs
  · cases h.covered hw hf hl with
    | pending hp => exact .pending hp
    | started _ ha =>
      rw [hactive] at ha
      cases ha
    | reading hp ha _ =>
      rw [hactive] at ha
      cases ha
      exact (hlost hw hf hl hp).elim
    | served hserved => exact absurd hserved hn

theorem Core.publish (h : Core o s) {id : Key} {r : Refresh} {n k : Nat} {v : Resource}
    (hactive : s.active.get id = some (.reading r n k)) (hn : n ≤ v.viewVersion)
    (hv : v.viewVersion ≤ s.stored id) :
    Core o { s with active := s.active.set id .done, published := ⟨r, v, k⟩ :: s.published } := by
  have hr := (h.reading hactive).1
  have hother : ∀ {j stage}, (s.active.set id .done).get j = some stage → stage ≠ .done →
      j ≠ id ∧ s.active.get j = some stage := by
    intro j stage hs hne
    rw [InsertionMap.get_set] at hs
    split at hs
    · cases hs
      exact absurd rfl hne
    · exact ⟨‹_›, hs⟩
  have hseen : ∀ {j m}, Seen s j m →
      Seen { s with active := s.active.set id .done, published := ⟨r, v, k⟩ :: s.published } j m :=
    fun hm => ⟨hm.stored, fun hs => hm.reading (hother hs (by rintro ⟨⟩)).2⟩
  constructor
  · exact h.exact
  · exact h.bytes
  · intro j l hl
    exact ⟨(h.pending hl).accepted, (h.pending hl).id⟩
  · intro j l hl
    have hm := h.started (hother hl (by rintro ⟨⟩)).2
    exact ⟨hm.accepted, hm.id⟩
  · intro j l m i hl
    obtain ⟨hm, hle⟩ := h.reading (hother hl (by rintro ⟨⟩)).2
    exact ⟨⟨hm.accepted, hm.id⟩, hle⟩
  · exact h.issued
  · exact h.lasting
  · exact fun hc => hseen (h.cached_seen hc)
  · intro p hp
    obtain rfl | hp := List.mem_cons.mp hp
    · dsimp only
      rw [hr.id]
      exact ⟨hv, fun hs => absurd rfl (hother hs (by rintro ⟨⟩)).1⟩
    · exact hseen (h.published_seen p hp)
  · refine List.pairwise_cons.mpr ⟨fun q hq hid => ?_, h.ordered⟩
    have hq' := h.published_seen q hq
    rw [← hid, hr.id] at hq'
    exact Nat.le_trans (hq'.reading hactive) hn
  · intro j w hw hf hl
    by_cases hj : j = id
    · subst hj
      have hlast : Served s j w ∨ s.pending.get j = some w ∨ w.version ≤ k := by
        cases h.covered hw hf hl with
        | pending hp => exact .inr (.inl hp)
        | started _ ha =>
          rw [hactive] at ha
          cases ha
        | reading _ ha hk =>
          rw [hactive] at ha
          cases ha
          exact .inr (.inr hk)
        | served hserved => exact .inl hserved
      have hserves : w.version ≤ k → Covered { s with
          active := s.active.set j .done, published := ⟨r, v, k⟩ :: s.published } j w := by
        refine fun hk => .served ⟨⟨_, List.find?_cons_of_pos ?_, hk⟩, fun hs => ?_⟩
        · exact decide_eq_true hr.id
        · exact absurd rfl (hother hs (by rintro ⟨⟩)).1
      obtain hserved | hp | hk := hlast
      · exact hserves (hserved.reading hactive)
      · exact .pending hp
      · exact hserves hk
    · have hpublished : ({ s with
          active := s.active.set id .done, published := ⟨r, v, k⟩ :: s.published } : State).lastPublished j =
          s.lastPublished j := by
        refine List.find?_cons_of_neg ?_
        rw [decide_eq_true_iff, hr.id]
        exact Ne.symm hj
      cases h.covered hw hf hl with
      | pending hp => exact .pending hp
      | started hp ha => exact .started hp ((InsertionMap.get_set_ne _ _ hj).trans ha)
      | reading hp ha hk => exact .reading hp ((InsertionMap.get_set_ne _ _ hj).trans ha) hk
      | served hserved =>
        obtain ⟨p, hp, hle⟩ := hserved.published
        exact .served ⟨⟨p, hpublished.trans hp, hle⟩, fun hs => hserved.reading (hother hs (by rintro ⟨⟩)).2⟩

theorem seen_done {id : Key} {n : Nat} (h : n ≤ s.stored id) :
    Seen { s with active := s.active.set id .done } id n := by
  refine ⟨h, fun hs => ?_⟩
  dsimp only at hs
  rw [InsertionMap.get_set_self] at hs
  cases hs

theorem Core.answered (h : Core o s) {id : Key} {r : Refresh} {n k : Nat}
    (hactive : s.active.get id = some (.reading r n k)) (ht : Answered o s id r n k t) : Core o t := by
  obtain ⟨hr, hn⟩ := h.reading hactive
  have hfailed : Core o { s with active := s.active.set id .done, failed := r.version :: s.failed } :=
    (h.fails r.version).done hactive fun _ hf _ _ => hf List.mem_cons_self
  cases ht with
  | unwanted hunwanted =>
    refine h.done hactive fun hw _ hl _ => ?_
    rw [h.lasting r (List.mem_of_find?_eq_some hw) hl] at hunwanted
    cases hunwanted
  | failed => exact hfailed.fail
  | overtaken hl hlt =>
    refine h.done hactive fun _ _ _ hnone => ?_
    rw [hnone] at hl
    cases hl
  | older hc hle hlt =>
    have := (h.cached_seen hc).reading hactive
    omega
  | published hwanted hle hge hcaches =>
    rename_i v t
    rw [hr.id] at hge
    have hbase := h.publish hactive hle hge
    refine hbase.recache ?_ (hcaches.exact h.exact) (hcaches.bytes h.exact h.bytes) fun hc => ?_
    · rw [hcaches.rest]
    · obtain hc | ⟨rfl, hv⟩ := hcaches.cached hc
      · exact hbase.cached_seen hc
      · rw [hv]
        exact ⟨hge, (seen_done hge).reading⟩
  | unpublished hle hge hcaches =>
    rename_i v t
    rw [hr.id] at hge
    refine Core.fail (hfailed.recache ?_ (hcaches.exact h.exact) (hcaches.bytes h.exact h.bytes)
      fun hc => ?_)
    · rw [hcaches.rest]
    · obtain hc | ⟨rfl, hv⟩ := hcaches.cached hc
      · exact hfailed.cached_seen hc
      · rw [hv]
        exact ⟨hge, (seen_done hge).reading⟩

theorem Drained.same (h : Drained o s) (hp : t.pending = s.pending) (hc : t.closed = s.closed)
    (hbusy : ∀ id, Busy o s id → Busy o t id) : Drained o t := by
  intro id hid
  rw [hp] at hid
  rw [hc]
  exact ⟨(h id hid).1, hbusy id (h id hid).2⟩

theorem fail_rest (s : State) (id : Key) (r : Refresh) :
    (s.fail id r).pending = s.pending ∧ (s.fail id r).closed = s.closed ∧
      (s.fail id r).active = s.active := by
  unfold State.fail
  dsimp only
  split
  · exact ⟨rfl, rfl, rfl⟩
  · exact ⟨rfl, rfl, rfl⟩

theorem Answered.rest {id : Key} {r : Refresh} {n k : Nat} (ht : Answered o s id r n k t) :
    t.pending = s.pending ∧ t.closed = s.closed ∧ t.active = s.active.set id .done := by
  cases ht with
  | unwanted _ => exact ⟨rfl, rfl, rfl⟩
  | failed => exact fail_rest _ id r
  | overtaken _ _ => exact ⟨rfl, rfl, rfl⟩
  | older _ _ _ => exact ⟨rfl, rfl, rfl⟩
  | published _ _ _ hcaches =>
    rw [hcaches.rest]
    exact ⟨rfl, rfl, rfl⟩
  | unpublished _ _ hcaches =>
    obtain ⟨hp, hc, ha⟩ := fail_rest _ id r
    rw [hp, hc, ha, hcaches.rest]
    exact ⟨rfl, rfl, rfl⟩

theorem Inv.answer (h : Inv o s) {id : Key} {outcome : Outcome} (hs : s.answer o id outcome = some t) :
    Inv o t := by
  obtain ⟨r, n, k, hactive, ht⟩ := answered hs
  obtain ⟨hp, hc, ha⟩ := ht.rest
  refine ⟨h.toCore.answered hactive ht, h.drained.same hp hc fun j hj => ?_⟩
  have := hj.set id .done
  unfold Busy at this ⊢
  rw [ha]
  exact this

theorem Inv.pumped (h : Core o s) (hclosed : s.closed = true → Drained o s) : Inv o (s.pump o) := by
  refine ⟨h.pumps (pumps_pump o s), ?_⟩
  cases hc : s.closed with
  | false => exact drained_pump o hc
  | true =>
    unfold pump
    rw [if_pos hc]
    exact hclosed hc

theorem Inv.finish (h : Inv o s) {id : Key} (hs : s.finish o id = some t) : Inv o t := by
  unfold State.finish at hs
  obtain ⟨hdone, rfl⟩ := ite_some hs
  have hnone : (s.active.delete id).get id = none := by rw [InsertionMap.get_delete, if_pos rfl]
  have hpending : ∀ j, j ≠ id → s.pending.get j = s.pending.get j := fun _ _ => rfl
  refine Inv.pumped (h.toCore.turn hpending (fun j hj => ?_) (fun hl => hl)
    (fun hr => ?_) (fun hr => ?_) (fun hw hf hl hn => ?_)) fun hclosed j hj => ?_
  · rw [InsertionMap.get_delete, if_neg hj]
  · rw [hnone] at hr
    cases hr
  · rw [hnone] at hr
    cases hr
  · cases h.covered hw hf hl with
    | pending hp => exact .pending hp
    | started _ ha =>
      rw [hdone] at ha
      cases ha
    | reading _ ha _ =>
      rw [hdone] at ha
      cases ha
    | served hserved => exact absurd hserved hn
  · have hopen := (h.drained j hj).1
    dsimp only at hclosed
    rw [hopen] at hclosed
    cases hclosed

theorem Core.wake (h : Core o s) {r : Refresh} (hversion : r.version = s.version + 1)
    (hgeneration : r.generation = s.generation) (hwanted : s.wanted r = true) :
    Core o { s with
      pending := s.pending.set r.id r, version := s.version + 1, accepted := r :: s.accepted } := by
  have hmine : ∀ {id l}, Mine s id l → Mine { s with
      pending := s.pending.set r.id r, version := s.version + 1, accepted := r :: s.accepted } id l :=
    fun hm => ⟨List.mem_cons_of_mem _ hm.accepted, hm.id⟩
  constructor
  · exact h.exact
  · exact h.bytes
  · intro id l hl
    dsimp only at hl
    rw [InsertionMap.get_set] at hl
    split at hl
    · cases hl
      exact ⟨List.mem_cons_self, (‹id = r.id› : _).symm⟩
    · exact hmine (h.pending hl)
  · exact fun hl => hmine (h.started hl)
  · exact fun hl => ⟨hmine (h.reading hl).1, (h.reading hl).2⟩
  · intro w hw
    obtain rfl | hw := List.mem_cons.mp hw
    · exact ⟨Nat.le_of_eq hversion, Nat.le_of_eq hgeneration⟩
    · obtain ⟨hv, hg⟩ := h.issued w hw
      exact ⟨Nat.le_succ_of_le hv, hg⟩
  · intro w hw hl
    obtain rfl | hw := List.mem_cons.mp hw
    · exact hwanted
    · exact h.lasting w hw hl
  · exact fun hc => ⟨(h.cached_seen hc).stored, (h.cached_seen hc).reading⟩
  · exact fun p hp => ⟨(h.published_seen p hp).stored, (h.published_seen p hp).reading⟩
  · exact h.ordered
  · intro id w hw hf hl
    by_cases hid : r.id = id
    · unfold State.lastWake at hw
      simp only [List.find?_cons, decide_eq_true hid] at hw
      cases hw
      refine .pending ?_
      dsimp only
      rw [hid, InsertionMap.get_set_self]
    · unfold State.lastWake at hw
      simp only [List.find?_cons, decide_eq_false hid] at hw
      have hlast : s.lastWake id = some w := hw
      have hother : (s.pending.set r.id r).get id = s.pending.get id :=
        InsertionMap.get_set_ne _ _ (Ne.symm hid)
      cases h.covered hlast hf hl with
      | pending hp => exact .pending (hother.trans hp)
      | started hp ha => exact .started (hother.trans hp) ha
      | reading hp ha hk => exact .reading (hother.trans hp) ha hk
      | served hs => exact .served ⟨hs.published, hs.reading⟩

theorem Inv.notify (h : Inv o s) (tenant session owner : Nat) :
    Inv o (s.notify o tenant session owner) := by
  have htrims := trims_dropUnwatched s
  have hcore := h.toCore.trims htrims
  have hdrained : Drained o s.dropUnwatched := by
    rw [htrims.rest]
    exact h.drained.same rfl rfl fun _ hb => hb
  have hrest : s.dropUnwatched.closed = s.closed ∧ s.dropUnwatched.held = s.held := by
    rw [htrims.rest]
    exact ⟨rfl, rfl⟩
  unfold State.notify
  split
  · exact h
  · rename_i howned
    dsimp only
    split
    · exact ⟨hcore, hdrained⟩
    · rename_i hwatched
      split
      · exact ⟨(hcore.trims (trims_remove _ _)).unavailable _, hdrained.same rfl rfl fun _ hb => hb⟩
      · simp only [Bool.or_eq_true, not_or, Bool.not_eq_true, Bool.not_eq_false'] at howned hwatched
        refine Inv.pumped (hcore.wake (r := ⟨tenant, session, _, owner, _⟩) rfl rfl ?_) fun hclosed => ?_
        · unfold State.wanted State.valid
          rw [hrest.1, hrest.2, howned.1]
          simp only [Bool.not_false, decide_true, Bool.true_and, Bool.and_eq_true]
          exact ⟨howned.2, hwatched⟩
        · have hopen : s.dropUnwatched.closed = true := hclosed
          rw [hrest.1, howned.1] at hopen
          cases hopen

theorem wanted_of_lapse {w : Refresh} (hw : w ∈ s.accepted) (hl : w.version ∉ s.lapse.lapsed) :
    s.wanted w = true := by
  by_contra hunwanted
  refine hl (List.mem_append_left _ (List.mem_map_of_mem (List.mem_filter.mpr ⟨hw, ?_⟩)))
  simpa using hunwanted

theorem Inv.environment (h : Inv o s) (held : Nat → Bool) (watched : Key → Bool) :
    Inv o { s with held := held, watched := watched }.lapse where
  exact := h.exact
  bytes := h.bytes
  pending hr := ⟨(h.pending hr).accepted, (h.pending hr).id⟩
  started hr := ⟨(h.started hr).accepted, (h.started hr).id⟩
  reading hr := ⟨⟨(h.reading hr).1.accepted, (h.reading hr).1.id⟩, (h.reading hr).2⟩
  issued := h.issued
  lasting _ hw hl := wanted_of_lapse (s := { s with held := held, watched := watched }) hw hl
  cached_seen hc := ⟨(h.cached_seen hc).stored, (h.cached_seen hc).reading⟩
  published_seen p hp := ⟨(h.published_seen p hp).stored, (h.published_seen p hp).reading⟩
  ordered := h.ordered
  covered hw hf hl := match h.covered hw hf (fun hin => hl (List.mem_append_right _ hin)) with
    | .pending hr => .pending hr
    | .started hn hr => .started hn hr
    | .reading hn hr hk => .reading hn hr hk
    | .served hs => .served ⟨hs.published, hs.reading⟩
  drained := h.drained.same rfl rfl fun _ hb => hb

theorem Inv.reset (h : Inv o s) (closed : Bool) : Inv o { s with closed := closed }.reset.lapse where
  exact := rfl
  bytes := Int.natCast_nonneg _
  pending hr := absurd hr (InsertionMap.get_empty _ _)
  started hr := ⟨(h.started hr).accepted, (h.started hr).id⟩
  reading hr := ⟨⟨(h.reading hr).1.accepted, (h.reading hr).1.id⟩, (h.reading hr).2⟩
  issued w hw := ⟨(h.issued w hw).1, Nat.le_succ_of_le (h.issued w hw).2⟩
  lasting _ hw hl := wanted_of_lapse (s := { s with closed := closed }.reset) hw hl
  cached_seen hc := absurd hc (InsertionMap.get_empty _ _)
  published_seen p hp := ⟨(h.published_seen p hp).stored, (h.published_seen p hp).reading⟩
  ordered := h.ordered
  covered := by
    intro id w hw _ hl
    have hin : w ∈ s.accepted := List.mem_of_find?_eq_some hw
    have hwanted := wanted_of_lapse (s := { s with closed := closed }.reset) hin hl
    unfold State.wanted State.valid State.reset at hwanted
    simp only [Bool.and_eq_true, decide_eq_true_eq] at hwanted
    have := (h.issued w hin).2
    omega
  drained id hid := absurd rfl hid

theorem Inv.store (h : Inv o s) {id : Key} {version : Nat} (hv : s.stored id ≤ version) :
    Inv o { s with stored := fun j => if j = id then version else s.stored j } := by
  have hle : ∀ j, s.stored j ≤ if j = id then version else s.stored j := by
    intro j
    split
    · rename_i hj
      rw [hj]
      exact hv
    · exact Nat.le_refl _
  have hseen : ∀ {j n}, Seen s j n →
      Seen { s with stored := fun j => if j = id then version else s.stored j } j n :=
    fun hn => ⟨Nat.le_trans hn.stored (hle _), hn.reading⟩
  exact {
    exact := h.exact
    bytes := h.bytes
    pending := fun hr => ⟨(h.pending hr).accepted, (h.pending hr).id⟩
    started := fun hr => ⟨(h.started hr).accepted, (h.started hr).id⟩
    reading := fun hr => ⟨⟨(h.reading hr).1.accepted, (h.reading hr).1.id⟩,
      Nat.le_trans (h.reading hr).2 (hle _)⟩
    issued := h.issued
    lasting := h.lasting
    cached_seen := fun hc => hseen (h.cached_seen hc)
    published_seen := fun p hp => hseen (h.published_seen p hp)
    ordered := h.ordered
    covered := fun hw hf hl => match h.covered hw hf hl with
      | .pending hr => .pending hr
      | .started hn hr => .started hn hr
      | .reading hn hr hk => .reading hn hr hk
      | .served hs => .served ⟨hs.published, hs.reading⟩
    drained := h.drained.same rfl rfl fun _ hb => hb }

theorem Inv.act (h : Inv o s) {a : Action} (hs : act o s a = some t) : Inv o t := by
  cases a with
  | notify tenant session owner =>
    cases hs
    exact h.notify tenant session owner
  | start id => exact h.start hs
  | answer id outcome => exact h.answer hs
  | finish id => exact h.finish hs
  | reset =>
    cases hs
    exact h.reset s.closed
  | close =>
    cases hs
    exact h.reset true
  | own held =>
    cases hs
    exact h.environment held s.watched
  | watch watched =>
    cases hs
    exact h.environment s.held watched
  | store id version =>
    unfold Queues.act at hs
    dsimp only at hs
    split at hs
    · cases hs
      exact h.store ‹_›
    · cases hs

theorem Inv.init (hs : (system o).init s) : Inv o s := by
  obtain ⟨held, watched, stored, rfl⟩ := hs
  exact {
    exact := rfl
    bytes := Int.natCast_nonneg _
    pending := nofun
    started := nofun
    reading := nofun
    issued := nofun
    lasting := nofun
    cached_seen := nofun
    published_seen := nofun
    ordered := .nil
    covered := nofun
    drained := fun _ hid => absurd rfl hid }

theorem Inv.run {as : List Action} (h : Reach (system o) as s) : Inv o s :=
  h.invariant (Inv o) (fun _ hs => Inv.init hs) fun _ _ _ h hs => h.act hs

/-! ## Runs -/

/-- What a step does to the versions that are seen. -/
structure Moves (s t : State) : Prop where
  stored : ∀ id, s.stored id ≤ t.stored id
  reading : ∀ {id r n k}, t.active.get id = some (.reading r n k) →
    s.active.get id = some (.reading r n k) ∨ s.stored id ≤ n
  cached : ∀ {id c}, t.queues.get id = some c → s.queues.get id = some c ∨
    ∃ r n k, s.active.get id = some (.reading r n k) ∧ n ≤ c.value.viewVersion
  published : t.published = s.published ∨
    ∃ p, t.published = p :: s.published ∧ s.wanted p.refresh = true

theorem Moves.trims {u : State} (h : Moves s t) (ht : Trims u s) : Moves u t := by
  obtain ⟨hstored, hreading, hcached, hpublished⟩ := h
  rw [ht.rest] at hstored hreading hpublished
  refine ⟨hstored, hreading, fun hc => ?_, hpublished⟩
  obtain hc | ⟨r, n, k, hr, hle⟩ := hcached hc
  · exact .inl (ht.cached hc)
  · rw [ht.rest] at hr
    exact .inr ⟨r, n, k, hr, hle⟩

theorem Moves.pump (s : State) (pending : InsertionMap Key Refresh) (active : InsertionMap Key Stage)
    (version : Nat) (accepted : List Refresh)
    (hactive : ∀ {id r n k}, active.get id = some (.reading r n k) →
      s.active.get id = some (.reading r n k)) :
    Moves s ({ s with
      pending := pending, active := active, version := version, accepted := accepted }.pump o) := by
  have hpumps := pumps_pump o { s with
    pending := pending, active := active, version := version, accepted := accepted }
  refine ⟨fun id => ?_, fun hr => .inl (hactive (hpumps.reading hr)), fun hc => .inl ?_, .inl ?_⟩
  · exact Nat.le_of_eq (congrArg (State.stored · id) hpumps.rest).symm
  · rw [hpumps.rest] at hc
    exact hc
  · rw [hpumps.rest]

theorem Moves.enter (pending : InsertionMap Key Refresh) {id : Key} {r : Refresh} (hr : r.id = id) :
    Moves s ({ s with pending := pending }.enter id r) := by
  unfold State.enter
  split
  · refine ⟨fun _ => Nat.le_refl _, fun {j} _ _ _ ha => ?_, fun hc => .inl hc, .inl rfl⟩
    dsimp only at ha
    rw [InsertionMap.get_set] at ha
    split at ha
    · rename_i hj
      cases ha
      rw [hr, hj]
      exact .inr (Nat.le_refl _)
    · exact .inl ha
  · refine ⟨fun _ => Nat.le_refl _, fun {j} _ _ _ ha => ?_, fun hc => .inl hc, .inl rfl⟩
    dsimp only at ha
    rw [InsertionMap.get_set] at ha
    split at ha
    · cases ha
    · exact .inl ha

theorem fail_cached {id j : Key} {r : Refresh} {c : Cached} (h : (s.fail id r).queues.get j = some c) :
    s.queues.get j = some c := by
  unfold State.fail at h
  dsimp only at h
  split at h
  · exact (trims_remove { s with failed := r.version :: s.failed } id).cached h
  · exact h

theorem fail_kept (s : State) (id : Key) (r : Refresh) :
    (s.fail id r).stored = s.stored ∧ (s.fail id r).published = s.published := by
  unfold State.fail
  dsimp only
  split
  · exact ⟨rfl, rfl⟩
  · exact ⟨rfl, rfl⟩

theorem Moves.answered {id : Key} {r : Refresh} {n k : Nat}
    (hactive : s.active.get id = some (.reading r n k)) (ht : Answered o s id r n k t) : Moves s t := by
  have hreading : ∀ {j r n k}, t.active.get j = some (.reading r n k) →
      s.active.get j = some (.reading r n k) := by
    intro j r n k hj
    rw [ht.rest.2.2, InsertionMap.get_set] at hj
    split at hj
    · cases hj
    · exact hj
  have hnew : ∀ {v : Resource} {u : State}, n ≤ v.viewVersion →
      Caches o id v { s with active := s.active.set id .done } u → ∀ {j c}, u.queues.get j = some c →
      s.queues.get j = some c ∨
        ∃ r n k, s.active.get j = some (.reading r n k) ∧ n ≤ c.value.viewVersion := by
    intro v u hle hcaches j c hc
    obtain hc | ⟨rfl, hv⟩ := hcaches.cached hc
    · exact .inl hc
    · exact .inr ⟨r, n, k, hactive, hv ▸ hle⟩
  cases ht with
  | unwanted _ => exact ⟨fun _ => Nat.le_refl _, fun hr => .inl (hreading hr), .inl, .inl rfl⟩
  | failed =>
    obtain ⟨hstored, hpublished⟩ := fail_kept { s with active := s.active.set id .done } id r
    have hfailed : ∀ {j c}, ({ s with active := s.active.set id .done }.fail id r).queues.get j = some c →
        s.queues.get j = some c :=
      fun hc => fail_cached (s := { s with active := s.active.set id .done }) hc
    exact ⟨fun j => Nat.le_of_eq (congrFun hstored j).symm, fun hr => .inl (hreading hr), fun hc => .inl (hfailed hc),
      .inl hpublished⟩
  | overtaken _ _ => exact ⟨fun _ => Nat.le_refl _, fun hr => .inl (hreading hr), .inl, .inl rfl⟩
  | older _ _ _ => exact ⟨fun _ => Nat.le_refl _, fun hr => .inl (hreading hr), .inl, .inl rfl⟩
  | published hwanted hle hge hcaches =>
    rename_i v u
    refine ⟨fun j => ?_, fun hr => .inl (hreading hr), fun hc => hnew hle hcaches hc,
      .inr ⟨⟨r, v, k⟩, ?_, hwanted⟩⟩
    · exact Nat.le_of_eq (congrArg (State.stored · j) hcaches.rest).symm
    · rw [hcaches.rest]
  | unpublished hle hge hcaches =>
    rename_i v u
    obtain ⟨hstored, hpublished⟩ := fail_kept u id r
    refine ⟨fun j => ?_, fun hr => .inl (hreading hr), fun hc => hnew hle hcaches (fail_cached hc),
      .inl (hpublished.trans ?_)⟩
    · rw [hstored]
      exact Nat.le_of_eq (congrArg (State.stored · j) hcaches.rest).symm
    · rw [hcaches.rest]

theorem Inv.start_moves (h : Inv o s) {id : Key} (hs : s.start id = some t) : Moves s t := by
  unfold State.start at hs
  split at hs
  · rename_i r hactive
    split at hs
    · rename_i latest hlatest
      split at hs
      · cases hs
        exact .enter _ (h.pending hlatest).id
      · cases hs
        exact .enter _ (h.started hactive).id
    · cases hs
      exact .enter _ (h.started hactive).id
  · cases hs

theorem notify_moves (s : State) (tenant session owner : Nat) :
    Moves s (s.notify o tenant session owner) := by
  have hsame : ∀ s : State, Moves s s := fun s =>
    ⟨fun _ => Nat.le_refl _, fun hr => .inl hr, fun hc => .inl hc, .inl rfl⟩
  have htrims := trims_dropUnwatched s
  unfold State.notify
  split
  · exact hsame s
  · dsimp only
    split
    · exact (hsame _).trims htrims
    · split
      · have hmoves : Moves (s.dropUnwatched.remove (key tenant session))
            { s.dropUnwatched.remove (key tenant session) with
              unavailable := key tenant session :: s.dropUnwatched.unavailable } :=
          ⟨fun _ => Nat.le_refl _, fun hr => .inl hr, fun hc => .inl hc, .inl rfl⟩
        exact (hmoves.trims (trims_remove _ _)).trims htrims
      · exact (Moves.pump s.dropUnwatched _ _ _ _ fun hr => hr).trims htrims

theorem Inv.moves (h : Inv o s) {a : Action} (hs : Queues.act o s a = some t) : Moves s t := by
  have hlapse : ∀ held watched, Moves s { s with held := held, watched := watched }.lapse :=
    fun _ _ => ⟨fun _ => Nat.le_refl _, fun hr => .inl hr, fun hc => .inl hc, .inl rfl⟩
  have hreset : ∀ closed, Moves s { s with closed := closed }.reset.lapse :=
    fun _ => ⟨fun _ => Nat.le_refl _, fun hr => .inl hr, (nomatch ·), .inl rfl⟩
  cases a with
  | notify tenant session owner =>
    cases hs
    exact notify_moves s tenant session owner
  | start id => exact h.start_moves hs
  | answer id outcome =>
    obtain ⟨r, n, k, hactive, ht⟩ := Queues.answered hs
    exact .answered hactive ht
  | finish id =>
    unfold Queues.act State.finish at hs
    obtain ⟨-, rfl⟩ := ite_some hs
    exact .pump s s.pending (s.active.delete id) s.version s.accepted
      fun hr => InsertionMap.get_delete_some hr
  | reset =>
    cases hs
    exact hreset s.closed
  | close =>
    cases hs
    exact hreset true
  | own held =>
    cases hs
    exact hlapse held s.watched
  | watch watched =>
    cases hs
    exact hlapse s.held watched
  | store id version =>
    unfold Queues.act at hs
    obtain ⟨hle, rfl⟩ := ite_some hs
    refine ⟨fun j => ?_, fun hr => .inl hr, fun hc => .inl hc, .inl rfl⟩
    dsimp only
    split
    · rename_i hj
      rw [hj]
      exact hle
    · exact Nat.le_refl _

/-- From a state with a cached view of a queue on, no older view of it is read or cached. -/
structure Since (s : State) (id : Key) (n : Nat) : Prop where
  seen : Seen s id n
  cached : ∀ {c}, s.queues.get id = some c → n ≤ c.value.viewVersion

theorem Since.step {id : Key} {n : Nat} (h : Since s id n) (hm : Moves s t) : Since t id n := by
  refine ⟨⟨Nat.le_trans h.seen.stored (hm.stored id), fun hr => ?_⟩, fun hc => ?_⟩
  · obtain hr | hle := hm.reading hr
    · exact h.seen.reading hr
    · exact Nat.le_trans h.seen.stored hle
  · obtain hc | ⟨r, m, k, hr, hle⟩ := hm.cached hc
    · exact h.cached hc
    · exact Nat.le_trans (h.seen.reading hr) hle

theorem Since.steps {id : Key} {n : Nat} {as : List Action} (hreach : Reach (system o) as s)
    (h : Since s id n) (hs : Steps (system o) s t) : Since t id n := by
  induction hs with
  | refl => exact h
  | snoc hst hu ih =>
    obtain ⟨bs, hr⟩ := hreach.steps hst
    exact ih.step ((Inv.run hr).moves hu)

theorem cached_rises {as : List Action} (h : Reach (system o) as s) (hs : Steps (system o) s t)
    {tenant session : Nat} {v w : Resource} (hv : s.current tenant session = some v)
    (hw : t.current tenant session = some w) : v.viewVersion ≤ w.viewVersion := by
  unfold State.current at hv hw
  obtain ⟨c, hc, rfl⟩ := Option.map_eq_some_iff.mp hv
  obtain ⟨d, hd, rfl⟩ := Option.map_eq_some_iff.mp hw
  have hsince : Since s (key tenant session) c.value.viewVersion := by
    refine ⟨(Inv.run h).cached_seen hc, fun hc' => ?_⟩
    rw [hc] at hc'
    cases hc'
    exact Nat.le_refl _
  exact (hsince.steps h hs).cached hd

theorem Inv.idle (h : Inv o s) (hidle : s.active.size = 0) {id : Key} {w : Refresh}
    (hw : s.lastWake id = some w) (hf : w.version ∉ s.failed) (hl : w.version ∉ s.lapsed) :
    ∃ p, s.lastPublished id = some p ∧ w.version ≤ p.wakes := by
  have hnone : s.active.get id = none := by
    refine InsertionMap.get_eq_none.mpr ?_
    rw [List.length_eq_zero_iff.mp hidle]
    exact List.not_mem_nil
  cases h.covered hw hf hl with
  | pending hp =>
    obtain ⟨-, hactive | hfull⟩ := h.drained id (by rw [hp]; nofun)
    · exact absurd hnone hactive
    · have := o.concurrency_pos
      omega
  | started _ ha =>
    rw [hnone] at ha
    cases ha
  | reading _ ha _ =>
    rw [hnone] at ha
    cases ha
  | served hs => exact hs.published

theorem queue_view (o : Options) {as : List Action} {s : State} (h : Reach (system o) as s) :
    (s.bytes = s.queues.sum Cached.bytes ∧ s.bytes ≤ o.maximumBytes) ∧
      (s.published.Pairwise fun p q =>
        p.refresh.id = q.refresh.id → q.value.viewVersion ≤ p.value.viewVersion) ∧
      (∀ t, Steps (system o) s t → ∀ tenant session v w, s.current tenant session = some v →
        t.current tenant session = some w → v.viewVersion ≤ w.viewVersion) ∧
      (∀ a t, (system o).step s a t → t.published = s.published ∨
        ∃ p, t.published = p :: s.published ∧ s.valid p.refresh = true) ∧
      (s.active.size = 0 → ∀ id w, s.lastWake id = some w → w.version ∉ s.failed →
        w.version ∉ s.lapsed → ∃ p, s.lastPublished id = some p ∧ w.version ≤ p.wakes) := by
  have hinv := Inv.run h
  refine ⟨⟨hinv.exact, hinv.bytes⟩, hinv.ordered, fun t hs tenant session v w hv hw => cached_rises h hs hv hw,
    fun a t ha => ?_, fun hidle id w hw hf hl => hinv.idle hidle hw hf hl⟩
  obtain hsame | ⟨p, hp, hwanted⟩ := (hinv.moves ha).published
  · exact .inl hsame
  · unfold State.wanted at hwanted
    rw [Bool.and_eq_true] at hwanted
    exact .inr ⟨p, hp, hwanted.1⟩

def servedOnce : List Action :=
  [.store (0, 0) 5, .notify 0 0 0, .start (0, 0), .answer (0, 0) (.value ⟨0, 5, 100⟩ true), .finish (0, 0)]

def ownerLost : List Action :=
  servedOnce ++ [Action.notify 0 0 0, .own fun _ => false, .start (0, 0), .finish (0, 0)]

def fresh : State := { held := fun _ => true, watched := fun _ => true, stored := fun _ => 0 }

def summary (s : State) : Nat × List Nat × Option Refresh × Option Publication :=
  (s.active.size, s.failed, s.lastWake (0, 0), s.lastPublished (0, 0))

theorem fresh_reaches {as : List Action} {facts : Nat × List Nat × Option Refresh × Option Publication}
    (h : (as.foldlM (act {}) fresh).map summary = some facts) :
    ∃ s, Reach (system {}) as s ∧ summary s = facts := by
  obtain ⟨s, hs, hfacts⟩ := Option.map_eq_some_iff.mp h
  have hfresh : Reach (system {}) [] fresh := .init ⟨_, _, _, rfl⟩
  exact ⟨s, hfresh.foldlM (fun _ _ _ ha => ha) as hs, hfacts⟩

theorem queue_view_served : ∃ s p, Reach (system {}) servedOnce s ∧
    s.lastWake (0, 0) = some ⟨0, 0, 1, 0, 0⟩ ∧ s.lastPublished (0, 0) = some p ∧ 1 ≤ p.wakes := by
  have hfresh : Reach (system {}) [] fresh := .init ⟨_, _, _, rfl⟩
  obtain ⟨s, hs⟩ : ∃ s, servedOnce.foldlM (act {}) fresh = some s := ⟨_, rfl⟩
  have hreach := hfresh.foldlM (fun _ _ _ ha => ha) servedOnce hs
  cases hs
  obtain ⟨p, hp, hle⟩ :=
    (queue_view {} hreach).2.2.2.2 rfl (0, 0) ⟨0, 0, 1, 0, 0⟩ rfl (by decide) (by decide)
  exact ⟨_, p, hreach, rfl, hp, hle⟩

theorem queue_view_owner_lost : ¬ ∀ as s, Reach (system {}) as s → s.active.size = 0 → s.failed = [] →
    ∀ id w p, s.lastWake id = some w → s.lastPublished id = some p → w.version ≤ p.wakes := by
  intro hall
  have hfacts : (ownerLost.foldlM (act {}) fresh).map summary =
      some (0, [], some ⟨0, 0, 2, 0, 0⟩, some ⟨⟨0, 0, 1, 0, 0⟩, ⟨0, 5, 100⟩, 1⟩) := by decide +kernel
  obtain ⟨s, hreach, hs⟩ := fresh_reaches hfacts
  simp only [summary, Prod.mk.injEq] at hs
  obtain ⟨hidle, hfailed, hwake, hpublished⟩ := hs
  exact absurd (hall _ s hreach hidle hfailed (0, 0) _ _ hwake hpublished) (by decide)

end Queues
end Control
end PiCloud
