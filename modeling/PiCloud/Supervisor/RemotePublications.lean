import PiCloud.Lib.History
import PiCloud.Supervisor.RemoteTools

/-!
# Supervisor.RemotePublications

What a publication of remote tools is made of, and what holds of it when it is prepared.

* `prepareRemote_some`, `Prepared`: the commands and cancellations, read off the writes and entries.
* `Dispatched`, `Noted`: what the publications before say of a call.
* `Owns`: every operation is drawn for one command.
* `Sound`: what holds of a publication, given those before it.
* `Inv`: what every step keeps; `Inv.commit`: a commit is prepared.
-/

namespace PiCloud
namespace Supervisor
namespace Remote

open Lib

variable {α σ : Type}

/-! ## What a publication is made of -/

section Prepare

def entryOf (pending : Pendings α σ) (r : TaskRecord α) : Option (Pending α σ) :=
  if r.isTool then pending.get r.id else none

def toolOf (pending : Pendings α σ) (r : TaskRecord α) : Option (Nat × Command α σ) :=
  (entryOf pending r).bind fun e => if e.starts r then some (r.id, e.command) else none

def cancelsOf (pending : Pendings α σ) (r : TaskRecord α) : List Cancellation :=
  ((entryOf pending r).map fun e =>
    if e.ends r then cancellationsOf r.conversation e.command else []).getD []

def cancellingOf (pending : Pendings α σ) (r : TaskRecord α) : Option (Nat × Nat) :=
  (entryOf pending r).bind fun e => if e.ends r then some (r.id, e.command.operation) else none

def terminalOf (pending : Pendings α σ) (r : TaskRecord α) : Option Nat :=
  (entryOf pending r).bind fun _ => if r.status = .terminal then some r.id else none

variable {script : α → σ} {pending : Pendings α σ} {writes : List (Write α)}
  {acc acc' : Preparation α σ} {r : TaskRecord α} {e : Pending α σ}

theorem entryOf_some : entryOf pending r = some e ↔ r.isTool = true ∧ pending.get r.id = some e := by
  unfold entryOf
  split
  · rename_i htool
    simp [htool]
  · rename_i htool
    simp [htool]

theorem toolOf_some {x : Nat × Command α σ} (h : toolOf pending r = some x) :
    ∃ e, r.isTool = true ∧ pending.get r.id = some e ∧ e.starts r = true ∧ x = (r.id, e.command) := by
  obtain ⟨e, he, hx⟩ := Option.bind_eq_some_iff.mp h
  obtain ⟨htool, hget⟩ := entryOf_some.mp he
  obtain ⟨hstarts, rfl⟩ := ite_some hx
  exact ⟨e, htool, hget, hstarts, rfl⟩

theorem mem_cancelsOf {x : Cancellation} (h : x ∈ cancelsOf pending r) :
    ∃ e, r.isTool = true ∧ pending.get r.id = some e ∧ e.ends r = true ∧
      x ∈ cancellationsOf r.conversation e.command := by
  unfold cancelsOf at h
  cases he : entryOf pending r with
  | none =>
    rw [he] at h
    cases h
  | some e =>
    rw [he] at h
    obtain ⟨htool, hget⟩ := entryOf_some.mp he
    dsimp only [Option.map_some, Option.getD_some] at h
    split at h
    · rename_i hends
      exact ⟨e, htool, hget, hends, h⟩
    · cases h

theorem cancelsOf_eq (htool : r.isTool = true) (hget : pending.get r.id = some e)
    (hends : e.ends r = true) : cancelsOf pending r = cancellationsOf r.conversation e.command := by
  unfold cancelsOf
  rw [entryOf_some.mpr ⟨htool, hget⟩]
  dsimp only [Option.map_some, Option.getD_some]
  rw [if_pos hends]

theorem cancellingOf_some {x : Nat × Nat} :
    cancellingOf pending r = some x ↔ ∃ e, r.isTool = true ∧ pending.get r.id = some e ∧
      e.ends r = true ∧ x = (r.id, e.command.operation) := by
  constructor
  · intro h
    obtain ⟨e, he, hx⟩ := Option.bind_eq_some_iff.mp h
    obtain ⟨htool, hget⟩ := entryOf_some.mp he
    obtain ⟨hends, rfl⟩ := ite_some hx
    exact ⟨e, htool, hget, hends, rfl⟩
  · rintro ⟨e, htool, hget, hends, rfl⟩
    unfold cancellingOf
    rw [entryOf_some.mpr ⟨htool, hget⟩, Option.bind_some, if_pos hends]

theorem terminalOf_some {t : Nat} (h : terminalOf pending r = some t) :
    r.id = t ∧ r.status = .terminal := by
  obtain ⟨e, -, ht⟩ := Option.bind_eq_some_iff.mp h
  obtain ⟨hstatus, rfl⟩ := ite_some ht
  exact ⟨rfl, hstatus⟩

theorem mem_cancellationsOf {conversation : Nat} {c : Command α σ} {x : Cancellation}
    (h : x ∈ cancellationsOf conversation c) : x.operation = c.operation ∧ c.isControl = false := by
  unfold cancellationsOf at h
  unfold Command.isControl
  split at h
  all_goals rename_i hbody; rw [hbody]
  · obtain rfl := List.mem_singleton.mp h
    exact ⟨rfl, rfl⟩
  · cases h
  · obtain rfl := List.mem_singleton.mp h
    exact ⟨rfl, rfl⟩
  · obtain rfl := List.mem_singleton.mp h
    exact ⟨rfl, rfl⟩

theorem durableToolIntent_some {task : Nat} {intent : Nat × α}
    (h : durableToolIntent writes task = some intent) :
    ∃ r ∈ tasksOf writes, r.id = task ∧ r.isTool = true ∧ r.abortRequested = false ∧
      r.callId = some intent.1 ∧ r.checkpoint = some ⟨true, some intent.2⟩ := by
  obtain ⟨r, hfind, h⟩ := bind_some h
  obtain ⟨⟨execute, arguments⟩, hcheckpoint, h⟩ := bind_some h
  obtain ⟨hguard, h⟩ := guard_some h
  obtain ⟨callId, hcall, h⟩ := bind_some h
  obtain ⟨args, hargs, h⟩ := bind_some h
  cases h
  simp only [Bool.and_eq_true, Bool.not_eq_true'] at hguard
  obtain ⟨⟨htool, habort⟩, hexecute⟩ := hguard
  refine ⟨r, List.mem_of_find?_eq_some hfind, by simpa using List.find?_some hfind, htool, habort,
    hcall, ?_⟩
  dsimp only at hexecute hargs
  rw [hcheckpoint, hexecute, hargs]

variable [DecidableEq α] [DecidableEq σ]

/-- What a call that starts has been checked for. -/
def Fits (script : α → σ) (pending : Pendings α σ) (writes : List (Write α)) (r : TaskRecord α) :
    Prop :=
  ∀ x ∈ toolOf pending r, ∃ intent, durableToolIntent writes r.id = some intent ∧
    x.2.fits script intent = true

theorem start_some (h : acc.start r script writes e = some acc') :
    acc' = { acc with
        tools := acc.tools ++ (if e.starts r then some (r.id, e.command) else none).toList } ∧
      (e.starts r = true → ∃ intent, durableToolIntent writes r.id = some intent ∧
        e.command.fits script intent = true) := by
  unfold Preparation.start at h
  split at h
  · rename_i hstarts
    obtain ⟨intent, hintent, h⟩ := bind_some h
    obtain ⟨hfits, h⟩ := guard_some h
    cases h
    rw [if_pos hstarts]
    exact ⟨rfl, fun _ => ⟨intent, hintent, hfits⟩⟩
  · rename_i hstarts
    cases h
    rw [if_neg hstarts]
    exact ⟨by simp, fun h => absurd h hstarts⟩

theorem prepareTask_some (h : prepareTask script pending writes acc r = some acc') :
    acc'.tools = acc.tools ++ (toolOf pending r).toList ∧
      acc'.cancellations = acc.cancellations ++ cancelsOf pending r ∧
      acc'.cancelling = acc.cancelling ++ (cancellingOf pending r).toList ∧
      acc'.terminal = acc.terminal ++ (terminalOf pending r).toList ∧
      Fits script pending writes r := by
  unfold prepareTask at h
  split at h
  · rename_i hnone
    cases h
    simp [Fits, toolOf, cancelsOf, cancellingOf, terminalOf, entryOf, hnone]
  · rename_i e he
    split at h
    · rename_i htool
      cases h
      simp [Fits, toolOf, cancelsOf, cancellingOf, terminalOf, entryOf, htool]
    · rename_i htool
      have hentry : entryOf pending r = some e := entryOf_some.mpr ⟨by simpa using htool, he⟩
      obtain ⟨mid, hmid, h⟩ := bind_some h
      cases h
      obtain ⟨rfl, hfits⟩ := start_some hmid
      unfold Fits toolOf cancelsOf cancellingOf terminalOf
      rw [hentry]
      dsimp only [Option.bind_some, Option.map_some, Option.getD_some]
      refine ⟨?_, ?_, ?_, ?_, ?_⟩
      · unfold Preparation.finish Preparation.abort
        split <;> split <;> rfl
      · unfold Preparation.finish Preparation.abort
        split <;> split <;> simp
      · unfold Preparation.finish Preparation.abort
        split <;> split <;> simp
      · unfold Preparation.finish Preparation.abort
        split <;> split <;> simp
      · intro x hx
        obtain ⟨hstarts, rfl⟩ := ite_some hx
        exact hfits hstarts

theorem prepareRemote_some {rem : Preparation α σ}
    (h : prepareRemote script pending writes = some rem) :
    rem.tools = (tasksOf writes).filterMap (toolOf pending) ∧
      rem.cancellations = (tasksOf writes).flatMap (cancelsOf pending) ∧
      rem.cancelling = (tasksOf writes).filterMap (cancellingOf pending) ∧
      rem.terminal = (tasksOf writes).filterMap (terminalOf pending) ∧
      ∀ r ∈ tasksOf writes, Fits script pending writes r := by
  unfold prepareRemote at h
  suffices hgen : ∀ (rs : List (TaskRecord α)) (acc : Preparation α σ),
      rs.foldlM (prepareTask script pending writes) acc = some rem →
      rem.tools = acc.tools ++ rs.filterMap (toolOf pending) ∧
        rem.cancellations = acc.cancellations ++ rs.flatMap (cancelsOf pending) ∧
        rem.cancelling = acc.cancelling ++ rs.filterMap (cancellingOf pending) ∧
        rem.terminal = acc.terminal ++ rs.filterMap (terminalOf pending) ∧
        ∀ r ∈ rs, Fits script pending writes r from hgen _ _ h
  intro rs
  induction rs with
  | nil =>
    intro acc h
    cases h
    simp
  | cons r rs ih =>
    intro acc h
    obtain ⟨mid, hmid, h⟩ := bind_some h
    obtain ⟨htools, hcancels, hcancelling, hterminal, hfits⟩ := prepareTask_some hmid
    obtain ⟨ihtools, ihcancels, ihcancelling, ihterminal, ihfits⟩ := ih mid h
    have hcons {β : Type} (f : TaskRecord α → Option β) :
        (r :: rs).filterMap f = (f r).toList ++ rs.filterMap f := by
      rw [List.filterMap_cons]
      cases f r with
      | none => rfl
      | some b => rfl
    refine ⟨?_, ?_, ?_, ?_, ?_⟩
    · rw [ihtools, htools, hcons, List.append_assoc]
    · rw [ihcancels, hcancels, List.flatMap_cons, List.append_assoc]
    · rw [ihcancelling, hcancelling, hcons, List.append_assoc]
    · rw [ihterminal, hterminal, hcons, List.append_assoc]
    · intro x hx
      obtain rfl | hx := List.mem_cons.mp hx
      · exact hfits
      · exact ihfits x hx

end Prepare

/-! ## What holds of a publication -/

def Dispatched (ps : List (Publication α σ)) (task : Nat) (c : Command α σ) : Prop :=
  ∃ p ∈ ps, (task, c) ∈ p.intents

def Publication.aborts (p : Publication α σ) (task : Nat) : Prop :=
  ∃ r ∈ tasksOf p.writes, r.id = task ∧ r.isTool = true ∧ r.abortRequested = true

def Publication.ends (p : Publication α σ) (before : List (Publication α σ)) (task : Nat)
    (c : Command α σ) : Prop :=
  Dispatched before task c ∧ p.aborts task ∧ task ∉ p.completed

def Noted (ps : List (Publication α σ)) (task : Nat) (c : Command α σ) : Prop :=
  ∃ before, ∃ p : Publication α σ, ∃ after, ps = before ++ p :: after ∧ p.ends before task c

theorem Noted.dispatched {ps : List (Publication α σ)} {task : Nat} {c : Command α σ}
    (h : Noted ps task c) : Dispatched ps task c := by
  obtain ⟨before, p, after, rfl, ⟨q, hq, hc⟩, -⟩ := h
  exact ⟨q, List.mem_append_left _ hq, hc⟩

theorem noted_snoc {ps : List (Publication α σ)} {p : Publication α σ} {task : Nat}
    {c : Command α σ} : Noted (ps ++ [p]) task c ↔ Noted ps task c ∨ p.ends ps task c := by
  constructor
  · rintro ⟨before, q, after, heq, hends⟩
    obtain rfl | ⟨after, x, rfl⟩ := List.eq_nil_or_concat' after
    · obtain ⟨rfl, hpq⟩ := List.append_inj' heq rfl
      cases hpq
      exact .inr hends
    · rw [← List.cons_append, ← List.append_assoc] at heq
      exact .inl ⟨before, q, after, (List.append_inj' heq rfl).1, hends⟩
  · rintro (⟨before, q, after, rfl, hends⟩ | hends)
    · exact ⟨before, q, after ++ [p], by simp, hends⟩
    · exact ⟨ps, p, [], rfl, hends⟩

theorem dispatched_snoc {ps : List (Publication α σ)} {p : Publication α σ} {task : Nat}
    {c : Command α σ} :
    Dispatched (ps ++ [p]) task c ↔ Dispatched ps task c ∨ (task, c) ∈ p.intents := by
  unfold Dispatched
  simp [or_and_right, exists_or]

def operationsOf (ps : List (Publication α σ)) : List Nat :=
  ps.flatMap fun p => p.tools.map fun x => x.2.operation

/-! ## Who an operation is for -/

section Owners

/-- Who an operation was drawn for: a prepared call, or a command of `publishControl`. -/
inductive Origin where
  | hook | control
deriving DecidableEq

abbrev Owners (α σ : Type) := List (Origin × Nat × Command α σ)

def Owns (owners : Owners α σ) (o : Origin) (task : Nat) (c : Command α σ) : Prop :=
  owners[c.operation]? = some (o, task, c)

def OwnedBy (owners : Owners α σ) (p : Publication α σ) : Prop :=
  (∀ x ∈ p.intents, Owns owners .hook x.1 x.2) ∧ ∀ x ∈ p.controls, Owns owners .control x.1 x.2

/-- Every operation in use has the owner it was drawn for. -/
structure Owned (owners : Owners α σ) (s : State α σ) : Prop where
  length : owners.length = s.operations
  undispatched : ∀ t e, s.pending.get t = some e → e.dispatched = false →
    Owns owners .hook t e.command
  dispatched : ∀ t e, s.pending.get t = some e → e.dispatched = true →
    ∃ p ∈ s.published, (t, e.command) ∈ p.tools
  controls : ∀ op t c, s.controls.get op = some (t, c) → c.operation = op ∧
    Owns owners .control t c
  recovering : ∀ r ∈ s.recovering, ∀ c, r.command = some c →
    Owns owners .control r.invocation.task c
  published : ∀ p ∈ s.published, OwnedBy owners p
  inFlight : ∀ p ∈ s.inFlight, OwnedBy owners p

variable {owners : Owners α σ} {s : State α σ} {p : Publication α σ}

theorem Owns.inj {o o' : Origin} {t t' : Nat} {c c' : Command α σ} (h : Owns owners o t c)
    (h' : Owns owners o' t' c') (heq : c.operation = c'.operation) : o = o' ∧ t = t' ∧ c = c' := by
  unfold Owns at h h'
  rw [heq, h'] at h
  cases h
  exact ⟨rfl, rfl, rfl⟩

theorem Owned.lt {o : Origin} {t : Nat} {c : Command α σ} (h : Owned owners s)
    (hc : Owns owners o t c) : c.operation < s.operations := by
  rw [← h.length]
  exact (List.getElem?_eq_some_iff.mp hc).1

/-- A command that is out was owned by a prepared call or by `publishControl`. -/
theorem OwnedBy.tools (h : OwnedBy owners p) {x : Nat × Command α σ} (hx : x ∈ p.tools) :
    (x ∈ p.intents ∧ Owns owners .hook x.1 x.2) ∨ (x ∈ p.controls ∧ Owns owners .control x.1 x.2) := by
  obtain hx | hx := List.mem_append.mp hx
  · exact .inl ⟨hx, h.1 x hx⟩
  · exact .inr ⟨hx, h.2 x hx⟩

theorem Owns.snoc {o : Origin} {t : Nat} {c : Command α σ} (h : Owns owners o t c)
    (x : Origin × Nat × Command α σ) : Owns (owners ++ [x]) o t c := by
  unfold Owns at h ⊢
  rw [List.getElem?_append_left (List.getElem?_eq_some_iff.mp h).1, h]

theorem OwnedBy.snoc {p : Publication α σ} (h : OwnedBy owners p)
    (x : Origin × Nat × Command α σ) : OwnedBy (owners ++ [x]) p :=
  ⟨fun y hy => (h.1 y hy).snoc x, fun y hy => (h.2 y hy).snoc x⟩

theorem Owned.owns_draw (h : Owned owners s) {c : Command α σ} (hc : c.operation = s.operations)
    (o : Origin) (t : Nat) : Owns (owners ++ [(o, t, c)]) o t c := by
  unfold Owns
  rw [hc, ← h.length, List.getElem?_concat_length]

theorem Owned.eraseIdx (h : Owned owners s) (k : Nat) :
    ∀ r ∈ s.recovering.eraseIdx k, ∀ c, r.command = some c →
      Owns owners .control r.invocation.task c :=
  fun r hr => h.recovering r (List.mem_of_mem_eraseIdx hr)

end Owners

/-! ## What an answer marks -/

section Marks

variable {p : Publication α σ}

/-- What `confirmed` marks of an entry that it keeps. -/
def Publication.mark (p : Publication α σ) (task : Nat) (e : Pending α σ) : Pending α σ :=
  { e with
    dispatched := e.dispatched || task ∈ p.intents.map Prod.fst
    cancelled := e.cancelled || (task, e.command.operation) ∈ p.cancelling }

theorem get_dispatch (pending : Pendings α σ) (tasks : List Nat) (t : Nat) :
    (State.dispatch pending tasks).get t =
      (pending.get t).map fun e => { e with dispatched := e.dispatched || t ∈ tasks } := by
  unfold State.dispatch
  induction tasks generalizing pending with
  | nil =>
    rw [List.foldl_nil]
    cases pending.get t <;> simp
  | cons k tasks ih =>
    rw [List.foldl_cons, ih, InsertionMap.get_update]
    split
    · rename_i htk
      cases pending.get t <;> simp [htk]
    · rename_i htk
      cases pending.get t <;> simp [htk]

theorem get_cancel (pending : Pendings α σ) (cancelling : List (Nat × Nat)) (t : Nat) :
    (State.cancel pending cancelling).get t = (pending.get t).map fun e =>
      { e with cancelled := e.cancelled || (t, e.command.operation) ∈ cancelling } := by
  unfold State.cancel
  induction cancelling generalizing pending with
  | nil =>
    rw [List.foldl_nil]
    cases pending.get t <;> simp
  | cons c cancelling ih =>
    rw [List.foldl_cons, ih, InsertionMap.get_update]
    obtain ⟨k, op⟩ := c
    cases pending.get t with
    | none => split <;> rfl
    | some e =>
      by_cases htk : t = k
      · by_cases hop : e.command.operation = op
        · simp [htk, hop]
        · simp [htk, hop]
      · simp [htk]

theorem get_confirm (pending : Pendings α σ) (t : Nat) :
    (State.confirm pending p).get t =
      if t ∈ p.terminal then none else (pending.get t).map (p.mark t) := by
  unfold State.confirm
  rw [InsertionMap.get_foldl_delete, get_cancel, get_dispatch, Option.map_map]
  rfl

/-- What an answer to `p` may leave of the entries. -/
def Marks (p : Publication α σ) (pending pending' : Pendings α σ) : Prop :=
  ∀ t e', pending'.get t = some e' → ∃ e, pending.get t = some e ∧ e'.command = e.command ∧
    (e.dispatched = true → e'.dispatched = true) ∧
    (e'.dispatched = true → e.dispatched = true ∨ t ∈ p.intents.map Prod.fst)

theorem marks_dispatch {pending : Pendings α σ} {tasks : List Nat}
    (h : ∀ t ∈ tasks, t ∈ p.intents.map Prod.fst) :
    Marks p pending (State.dispatch pending tasks) := by
  intro t e' he
  rw [get_dispatch] at he
  obtain ⟨e, hget, rfl⟩ := Option.map_eq_some_iff.mp he
  refine ⟨e, hget, rfl, ?_, ?_⟩
  · intro hdispatched
    simp [hdispatched]
  · intro hdispatched
    rw [Bool.or_eq_true, decide_eq_true_iff] at hdispatched
    exact hdispatched.imp_right (h t)

theorem marks_confirm {pending : Pendings α σ} : Marks p pending (State.confirm pending p) := by
  intro t e' he
  rw [get_confirm] at he
  split at he
  · cases he
  · obtain ⟨e, hget, rfl⟩ := Option.map_eq_some_iff.mp he
    refine ⟨e, hget, rfl, ?_, ?_⟩
    · intro hdispatched
      simp [Publication.mark, hdispatched]
    · intro hdispatched
      simpa [Publication.mark] using hdispatched

end Marks

/-! ## What holds of a publication, given the others -/

variable [DecidableEq α] [DecidableEq σ]

/-- What holds of a publication, given those before it. -/
structure Sound (script : α → σ) (before : List (Publication α σ)) (p : Publication α σ) :
    Prop where
  operations : (p.tools.map fun x => x.2.operation).Nodup
  fresh : ∀ x ∈ p.tools, x.2.operation ∉ operationsOf before
  tasks : (p.intents.map Prod.fst).Nodup
  first : ∀ x ∈ p.intents, ∀ c, ¬Dispatched before x.1 c
  recorded : ∀ x ∈ p.intents, ∃ r ∈ tasksOf p.writes, r.id = x.1 ∧ r.isTool = true ∧
    r.abortRequested = false ∧ ∃ callId arguments, r.callId = some callId ∧
      r.checkpoint = some ⟨true, some arguments⟩ ∧ x.2.fits script (callId, arguments) = true
  controlled : ∀ x ∈ p.controls, (x.2.operation, x.1) ∈ controlsOf p.writes ∧
    runs p.records x.1 x.2 = true
  /-- The first recorded abort carries what there is to cancel. -/
  cancelled : ∀ t c, p.ends before t c → ¬Noted before t c → ∀ r ∈ tasksOf p.writes, r.id = t →
    p.cancellations.filter (fun x => x.operation = c.operation) = cancellationsOf r.conversation c
  /-- Nothing else is cancelled. -/
  only : ∀ x ∈ p.cancellations, ∃ t c, p.ends before t c ∧ ¬Noted before t c ∧
    ∃ r ∈ tasksOf p.writes, r.id = t ∧ x ∈ cancellationsOf r.conversation c

/-! ## What every step keeps -/

/-- The publication that is under way. -/
structure Flight (script : α → σ) (s : State α σ) (p : Publication α σ) : Prop where
  sound : Sound script s.published p
  created : ∀ w ∈ controlsOf p.writes, ∃ x ∈ p.controls, x.2.operation = w.1
  intents : ∀ x ∈ p.intents, ∀ e, s.pending.get x.1 = some e → e.dispatched = false →
    e.command = x.2

/-- As long as the session goes on: what the commit that is under way has found. -/
structure LiveFlight (owners : Owners α σ) (s : State α σ) (p : Publication α σ) : Prop where
  ids : ((tasksOf p.writes).map TaskRecord.id).Nodup
  going : ∀ r ∈ tasksOf p.writes, ∀ old, s.records.get r.id = some old → old.status ≠ .terminal
  terminal : ∀ t ∈ p.terminal, ∃ r ∈ tasksOf p.writes, r.id = t ∧ r.status = .terminal
  intents : ∀ x ∈ p.intents, ∃ e, s.pending.get x.1 = some e ∧ e.dispatched = false
  cancelling : ∀ t e, s.pending.get t = some e → Owns owners .hook t e.command →
    ((t, e.command.operation) ∈ p.cancelling ↔
      e.dispatched = true ∧ p.aborts t ∧ t ∉ p.completed ∧ e.cancelled = false)
  drawn : ∀ x ∈ p.cancelling, x.2 < s.operations

/-- As long as the session goes on: the entries tell what has gone out. -/
structure Live (owners : Owners α σ) (s : State α σ) : Prop where
  unused : ∀ t e, s.pending.get t = some e → e.dispatched = false →
    e.cancelled = false ∧ ¬Dispatched s.published t e.command
  kept : ∀ t c, Dispatched s.published t c →
    (∃ r, s.records.get t = some r ∧ r.status = .terminal) ∨
      ∃ e, s.pending.get t = some e ∧ e.dispatched = true ∧ e.command = c
  noted : ∀ t e, s.pending.get t = some e → Dispatched s.published t e.command →
    (e.cancelled = true ↔ Noted s.published t e.command)
  documents : ∀ p ∈ s.published, ∀ x ∈ p.controls, x.2.operation ∈ s.documents
  flight : ∀ p ∈ s.inFlight, LiveFlight owners s p

structure Inv (script : α → σ) (owners : Owners α σ) (s : State α σ) : Prop where
  sound : Always (Sound script) s.published
  documents : ∀ op ∈ s.documents, ∃ p ∈ s.published, ∃ x ∈ p.controls, x.2.operation = op
  waits : ∀ w ∈ s.waits, ∃ p ∈ s.published, ∃ x ∈ p.tools, x.1 = w.1 ∧ x.2.operation = w.2
  owned : Owned owners s
  flight : ∀ p ∈ s.inFlight, Flight script s p
  live : s.interrupted = false → s.closed = false → Live owners s

/-! ## A commit -/

section Commit

variable {script : α → σ} {owners : Owners α σ} {s : State α σ} {writes : List (Write α)}
  {p : Publication α σ}

/-- What a publication is made of. -/
structure Prepared (script : α → σ) (s : State α σ) (p : Publication α σ) : Prop where
  intents : p.intents = (tasksOf p.writes).filterMap (toolOf s.pending)
  cancellations : p.cancellations = (tasksOf p.writes).flatMap (cancelsOf s.pending)
  cancelling : p.cancelling = (tasksOf p.writes).filterMap (cancellingOf s.pending)
  terminal : p.terminal = (tasksOf p.writes).filterMap (terminalOf s.pending)
  fits : ∀ r ∈ tasksOf p.writes, Fits script s.pending p.writes r
  controls : (controlsOf p.writes).map (fun w => s.controls.get w.1) = p.controls.map some
  completed : ∀ r ∈ tasksOf p.writes,
    r.id ∈ p.completed ↔ ∃ e, s.pending.get r.id = some e ∧ e.completed = true
  records : p.records = s.records

theorem publication_prepared (h : s.publication script writes = some p) :
    p.writes = writes ∧ Prepared script s p := by
  obtain ⟨rem, hrem, h⟩ := bind_some h
  obtain ⟨controls, hcontrols, h⟩ := bind_some h
  cases h
  obtain ⟨htools, hcancels, hcancelling, hterminal, hfits⟩ := prepareRemote_some hrem
  refine ⟨rfl, htools, hcancels, hcancelling, hterminal, hfits, mapM_some hcontrols, ?_, rfl⟩
  intro r hr
  rw [List.mem_filterMap]
  constructor
  · rintro ⟨r', -, heq⟩
    split at heq
    · rename_i hany
      rw [Option.some.inj heq] at hany
      cases hget : s.pending.get r.id with
      | none =>
        rw [hget] at hany
        cases hany
      | some e =>
        rw [hget] at hany
        exact ⟨e, rfl, hany⟩
    · cases heq
  · rintro ⟨e, he, hcompleted⟩
    refine ⟨r, hr, ?_⟩
    rw [he, if_pos (by simpa using hcompleted)]

namespace Prepared

variable (hp : Prepared script s p)

include hp

theorem mem_intents {x : Nat × Command α σ} (hx : x ∈ p.intents) :
    ∃ r ∈ tasksOf p.writes, toolOf s.pending r = some x := by
  rw [hp.intents] at hx
  exact List.mem_filterMap.mp hx

theorem mem_controls {x : Nat × Command α σ} (hx : x ∈ p.controls) :
    ∃ w ∈ controlsOf p.writes, s.controls.get w.1 = some x := by
  have hmem := List.mem_map_of_mem (f := some) hx
  rw [← hp.controls] at hmem
  exact List.mem_map.mp hmem

theorem mem_cancelling {t op : Nat} : (t, op) ∈ p.cancelling ↔
    ∃ r ∈ tasksOf p.writes, r.id = t ∧ r.isTool = true ∧
      ∃ e, s.pending.get t = some e ∧ e.ends r = true ∧ op = e.command.operation := by
  rw [hp.cancelling, List.mem_filterMap]
  constructor
  · rintro ⟨r, hr, hx⟩
    obtain ⟨e, htool, hget, hends, heq⟩ := cancellingOf_some.mp hx
    cases heq
    exact ⟨r, hr, rfl, htool, e, hget, hends, rfl⟩
  · rintro ⟨r, hr, rfl, htool, e, hget, hends, rfl⟩
    exact ⟨r, hr, cancellingOf_some.mpr ⟨e, htool, hget, hends, rfl⟩⟩

theorem ownedBy (h : Owned owners s) : OwnedBy owners p := by
  constructor
  · intro x hx
    obtain ⟨r, -, htool⟩ := hp.mem_intents hx
    obtain ⟨e, -, hget, hstarts, rfl⟩ := toolOf_some htool
    refine h.undispatched _ _ hget ?_
    simp only [Pending.starts, Bool.and_eq_true, Bool.not_eq_true'] at hstarts
    exact hstarts.2
  · intro x hx
    obtain ⟨w, -, hget⟩ := hp.mem_controls hx
    exact (h.controls w.1 x.1 x.2 hget).2

theorem recorded {x : Nat × Command α σ} (hx : x ∈ p.intents) :
    ∃ r ∈ tasksOf p.writes, r.id = x.1 ∧ r.isTool = true ∧
      r.abortRequested = false ∧ ∃ callId arguments, r.callId = some callId ∧
        r.checkpoint = some ⟨true, some arguments⟩ ∧ x.2.fits script (callId, arguments) = true := by
  obtain ⟨r, hr, htool⟩ := hp.mem_intents hx
  obtain ⟨intent, hintent, hfits⟩ := hp.fits r hr x htool
  obtain ⟨e, -, -, -, rfl⟩ := toolOf_some htool
  obtain ⟨r', hr', hid, htool', habort, hcall, hcheckpoint⟩ := durableToolIntent_some hintent
  exact ⟨r', hr', hid, htool', habort, intent.1, intent.2, hcall, hcheckpoint, hfits⟩

theorem tasks_nodup (hids : ((tasksOf p.writes).map TaskRecord.id).Nodup) :
    (p.intents.map Prod.fst).Nodup := by
  refine hids.sublist ?_
  rw [hp.intents]
  generalize tasksOf p.writes = rs
  induction rs with
  | nil => exact List.Sublist.slnil
  | cons r rs ih =>
    rw [List.filterMap_cons, List.map_cons]
    cases hx : toolOf s.pending r with
    | none => exact ih.cons _
    | some x =>
      obtain ⟨e, -, -, -, rfl⟩ := toolOf_some hx
      exact ih.cons_cons _

theorem controls_keys (h : Owned owners s) :
    p.controls.map (fun x => x.2.operation) = (controlsOf p.writes).map Prod.fst := by
  have hcontrols := hp.controls
  revert hcontrols
  generalize p.controls = controls
  generalize controlsOf p.writes = ws
  intro hcontrols
  induction ws generalizing controls with
  | nil =>
    rw [List.map_nil, eq_comm, List.map_eq_nil_iff] at hcontrols
    rw [hcontrols]
    rfl
  | cons w ws ih =>
    cases controls with
    | nil => cases hcontrols
    | cons x controls =>
      rw [List.map_cons, List.map_cons, List.cons.injEq] at hcontrols
      rw [List.map_cons, List.map_cons, ih controls hcontrols.2,
        (h.controls w.1 x.1 x.2 hcontrols.1).1]

end Prepared

theorem Sound.tool_control {before : List (Publication α σ)} (h : Sound script before p)
    {x : Nat × Command α σ} (hx : x ∈ p.controls) : x.2.isControl = true := by
  have hruns := (h.controlled x hx).2
  unfold runs at hruns
  unfold Command.isControl
  split at hruns
  · rename_i hbody
    rw [hbody]
  · cases hruns

namespace Inv

variable (h : Inv script owners s)

include h

theorem sound_of_mem (hp : p ∈ s.published) : ∃ before, Sound script before p := by
  obtain ⟨before, after, heq⟩ := List.append_of_mem hp
  exact ⟨before, h.sound before p after heq⟩

/-- A dispatched call whose command is none of `publishControl` was dispatched by its commit. -/
theorem dispatched {t : Nat} {e : Pending α σ} (hget : s.pending.get t = some e)
    (hdispatched : e.dispatched = true) (hcontrol : e.command.isControl = false) :
    Dispatched s.published t e.command := by
  obtain ⟨q, hq, hx⟩ := h.owned.dispatched t e hget hdispatched
  obtain hx | hx := List.mem_append.mp hx
  · exact ⟨q, hq, hx⟩
  · obtain ⟨before, hsound⟩ := h.sound_of_mem hq
    rw [hsound.tool_control hx] at hcontrol
    cases hcontrol

theorem owns_dispatched {t : Nat} {c : Command α σ} (hc : Dispatched s.published t c) :
    Owns owners .hook t c := by
  obtain ⟨q, hq, hx⟩ := hc
  exact (h.owned.published q hq).1 _ hx

theorem owns_entry {t : Nat} {e : Pending α σ} (hget : s.pending.get t = some e) :
    ∃ o, Owns owners o t e.command := by
  cases hdispatched : e.dispatched with
  | false => exact ⟨_, h.owned.undispatched t e hget hdispatched⟩
  | true =>
    obtain ⟨q, hq, hx⟩ := h.owned.dispatched t e hget hdispatched
    obtain ⟨-, howns⟩ | ⟨-, howns⟩ := (h.owned.published q hq).tools hx
    · exact ⟨_, howns⟩
    · exact ⟨_, howns⟩

end Inv

theorem Prepared.cancelled (hp : Prepared script s p) (h : Inv script owners s)
    (hlive : Live owners s) (hids : ((tasksOf p.writes).map TaskRecord.id).Nodup)
    (hgoing : ∀ r ∈ tasksOf p.writes, ∀ old, s.records.get r.id = some old →
      old.status ≠ .terminal) {t : Nat} {c : Command α σ} (hends : p.ends s.published t c)
    (hnoted : ¬Noted s.published t c) {r : TaskRecord α} (hr : r ∈ tasksOf p.writes)
    (hid : r.id = t) : p.cancellations.filter (fun x => x.operation = c.operation) =
      cancellationsOf r.conversation c := by
  subst hid
  obtain ⟨hc, ⟨r', hr', hid', htool, habort⟩, hcompleted⟩ := hends
  obtain rfl : r' = r := List.inj_on_of_nodup_map hids hr' hr hid'
  obtain ⟨old, hold, hterminal⟩ | ⟨e, hget, hdispatched, rfl⟩ := hlive.kept _ _ hc
  · exact absurd hterminal (hgoing r' hr old hold)
  have hentry : e.ends r' = true := by
    have hcancelled : e.cancelled = false := by
      rw [← Bool.not_eq_true, hlive.noted _ _ hget hc]
      exact hnoted
    have hrunning : e.completed = false := by
      rw [← Bool.not_eq_true]
      exact fun hyes => hcompleted ((hp.completed r' hr).mpr ⟨e, hget, hyes⟩)
    unfold Pending.ends
    rw [habort, hdispatched, hcancelled, hrunning]
    rfl
  -- another write has another operation
  have hother : ∀ r ∈ tasksOf p.writes, r.id ≠ r'.id →
      (cancelsOf s.pending r).filter (fun x => x.operation = e.command.operation) = [] := by
    intro r _ hne
    refine List.filter_eq_nil_iff.mpr fun x hx heq => hne ?_
    obtain ⟨e', -, hget', -, hx⟩ := mem_cancelsOf hx
    obtain ⟨o, howns⟩ := h.owns_entry hget'
    rw [(mem_cancellationsOf hx).1, decide_eq_true_iff] at heq
    exact (howns.inj (h.owns_dispatched hc) heq).2.1
  obtain ⟨before, after, heq⟩ := List.append_of_mem hr
  rw [heq, List.map_append, List.map_cons, List.nodup_middle, List.nodup_cons, List.mem_append,
    not_or] at hids
  rw [hp.cancellations, heq, List.flatMap_append, List.flatMap_cons, List.filter_append,
    List.filter_append, cancelsOf_eq htool hget hentry, List.filter_flatMap, List.filter_flatMap]
  rw [List.flatMap_eq_nil_iff.mpr, List.flatMap_eq_nil_iff.mpr, List.nil_append, List.append_nil,
    List.filter_eq_self]
  · exact fun x hx => decide_eq_true (mem_cancellationsOf hx).1
  · refine fun r hr' => hother r ?_ fun heq => hids.1.2 (heq ▸ List.mem_map_of_mem hr')
    rw [heq]
    exact List.mem_append_right _ (List.mem_cons_of_mem _ hr')
  · refine fun r hr' => hother r ?_ fun heq => hids.1.1 (heq ▸ List.mem_map_of_mem hr')
    rw [heq]
    exact List.mem_append_left _ hr'

theorem Inv.commit_sound {p : Publication α σ} (h : Inv script owners s) (hlive : Live owners s)
    (hp : Prepared script s p) (hlawful : Lawful s (.commit p.writes))
    (hcontrols : ∀ w ∈ controlsOf p.writes, ∀ x, s.controls.get w.1 = some x →
      x.1 = w.2 ∧ runs s.records x.1 x.2 = true) : Sound script s.published p := by
  obtain ⟨hids, hgoing, hkeys, hnew⟩ := hlawful
  have howned := hp.ownedBy h.owned
  have hundispatched : ∀ x ∈ p.intents, ∃ e, s.pending.get x.1 = some e ∧ e.dispatched = false ∧
      x.2 = e.command := by
    intro x hx
    obtain ⟨r, -, htool⟩ := hp.mem_intents hx
    obtain ⟨e, -, hget, hstarts, rfl⟩ := toolOf_some htool
    simp only [Pending.starts, Bool.and_eq_true, Bool.not_eq_true'] at hstarts
    exact ⟨e, hget, hstarts.2, rfl⟩
  constructor
  case operations =>
    unfold Publication.tools
    rw [List.map_append, List.nodup_append, hp.controls_keys h.owned]
    refine ⟨?_, hkeys, ?_⟩
    · refine List.Nodup.map_on (fun x hx y hy heq => ?_) (List.Nodup.of_map _ (hp.tasks_nodup hids))
      obtain ⟨-, htask, hcommand⟩ := (howned.1 x hx).inj (howned.1 y hy) heq
      exact Prod.ext htask hcommand
    · rintro a ha b hb rfl
      rw [← hp.controls_keys h.owned] at hb
      obtain ⟨x, hx, rfl⟩ := List.mem_map.mp ha
      obtain ⟨y, hy, heq⟩ := List.mem_map.mp hb
      cases ((howned.1 x hx).inj (howned.2 y hy) heq.symm).1
  case fresh =>
    intro x hx hin
    obtain ⟨q, hq, hin⟩ := List.mem_flatMap.mp hin
    obtain ⟨y, hy, heq⟩ := List.mem_map.mp hin
    obtain ⟨hx, hxo⟩ | ⟨hx, hxo⟩ := howned.tools hx
    all_goals obtain ⟨hy, hyo⟩ | ⟨hy, hyo⟩ := (h.owned.published q hq).tools hy
    · obtain ⟨-, htask, hcommand⟩ := hyo.inj hxo heq
      obtain ⟨e, hget, hno, hxe⟩ := hundispatched x hx
      refine (hlive.unused x.1 e hget hno).2 ⟨q, hq, ?_⟩
      rwa [← htask, ← hxe, ← hcommand]
    · cases (hyo.inj hxo heq).1
    · cases (hyo.inj hxo heq).1
    · obtain ⟨w, hw, hget⟩ := hp.mem_controls hx
      refine hnew w hw ?_
      rw [← (h.owned.controls w.1 x.1 x.2 hget).1, ← heq]
      exact hlive.documents q hq y hy
  case tasks => exact hp.tasks_nodup hids
  case first =>
    intro x hx c hc
    obtain ⟨r, hr, htool⟩ := hp.mem_intents hx
    obtain ⟨e, hget, hno, -⟩ := hundispatched x hx
    obtain ⟨old, hold, hterminal⟩ | ⟨e', hget', hyes, -⟩ := hlive.kept x.1 c hc
    · obtain ⟨_, -, -, -, rfl⟩ := toolOf_some htool
      exact hgoing r hr old hold hterminal
    · rw [hget] at hget'
      cases hget'
      rw [hno] at hyes
      cases hyes
  case recorded => exact fun x hx => hp.recorded hx
  case controlled =>
    intro x hx
    obtain ⟨w, hw, hget⟩ := hp.mem_controls hx
    obtain ⟨htask, hruns⟩ := hcontrols w hw x hget
    rw [hp.records]
    refine ⟨?_, hruns⟩
    rwa [(h.owned.controls w.1 x.1 x.2 hget).1, htask]
  case cancelled =>
    intro t c hends hnoted r hr hid
    exact hp.cancelled h hlive hids hgoing hends hnoted hr hid
  case only =>
    intro x hx
    rw [hp.cancellations] at hx
    obtain ⟨r, hr, hx⟩ := List.mem_flatMap.mp hx
    obtain ⟨e, htool, hget, hends, hx⟩ := mem_cancelsOf hx
    simp only [Pending.ends, Bool.and_eq_true, Bool.not_eq_true'] at hends
    obtain ⟨⟨⟨habort, hdispatched⟩, hcancelled⟩, hcompleted⟩ := hends
    have hc := h.dispatched hget hdispatched (mem_cancellationsOf hx).2
    refine ⟨r.id, e.command, ⟨hc, ⟨r, hr, rfl, htool, habort⟩, ?_⟩, ?_, r, hr, rfl, hx⟩
    · intro hin
      obtain ⟨e', hget', hcompleted'⟩ := (hp.completed r hr).mp hin
      rw [hget] at hget'
      cases hget'
      rw [hcompleted] at hcompleted'
      cases hcompleted'
    · rw [← hlive.noted r.id e hget hc, hcancelled]
      nofun

theorem Prepared.live (hp : Prepared script s p) (h : Inv script owners s)
    (hlawful : Lawful s (.commit p.writes)) : LiveFlight owners s p where
  ids := hlawful.1
  going := hlawful.2.1
  terminal t ht := by
    rw [hp.terminal] at ht
    obtain ⟨r, hr, ht⟩ := List.mem_filterMap.mp ht
    exact ⟨r, hr, terminalOf_some ht⟩
  intents x hx := by
    obtain ⟨r, -, htool⟩ := hp.mem_intents hx
    obtain ⟨e, -, hget, hstarts, rfl⟩ := toolOf_some htool
    simp only [Pending.starts, Bool.and_eq_true, Bool.not_eq_true'] at hstarts
    exact ⟨e, hget, hstarts.2⟩
  cancelling t e hget _ := by
    rw [hp.mem_cancelling]
    constructor
    · rintro ⟨r, hr, rfl, htool, e', hget', hends, -⟩
      rw [hget] at hget'
      cases hget'
      simp only [Pending.ends, Bool.and_eq_true, Bool.not_eq_true'] at hends
      obtain ⟨⟨⟨habort, hdispatched⟩, hcancelled⟩, hcompleted⟩ := hends
      refine ⟨hdispatched, ⟨r, hr, rfl, htool, habort⟩, fun hin => ?_, hcancelled⟩
      obtain ⟨e', hget', hyes⟩ := (hp.completed r hr).mp hin
      rw [hget] at hget'
      cases hget'
      rw [hcompleted] at hyes
      cases hyes
    · rintro ⟨hdispatched, ⟨r, hr, rfl, htool, habort⟩, hcompleted, hcancelled⟩
      have hrunning : e.completed = false := by
        rw [← Bool.not_eq_true]
        exact fun hyes => hcompleted ((hp.completed r hr).mpr ⟨e, hget, hyes⟩)
      refine ⟨r, hr, rfl, htool, e, hget, ?_, rfl⟩
      unfold Pending.ends
      rw [habort, hdispatched, hcancelled, hrunning]
      rfl
  drawn x hx := by
    obtain ⟨r, -, -, -, e, hget, -, hop⟩ := hp.mem_cancelling.mp hx
    obtain ⟨o, howns⟩ := h.owns_entry hget
    rw [hop]
    exact h.owned.lt howns

theorem Prepared.flight (hp : Prepared script s p) (howned : Owned owners s)
    (hsound : Sound script s.published p) : Flight script s p where
  sound := hsound
  created w hw := by
    have hmem := List.mem_map_of_mem (f := Prod.fst) hw
    rw [← hp.controls_keys howned] at hmem
    exact List.mem_map.mp hmem
  intents x hx e hget _ := by
    obtain ⟨r, -, htool⟩ := hp.mem_intents hx
    obtain ⟨e', -, hget', -, rfl⟩ := toolOf_some htool
    rw [hget] at hget'
    cases hget'
    rfl

theorem Inv.commit {t : State α σ} (h : Inv script owners s) (hlawful : Lawful s (.commit writes))
    (hs : act script s (.commit writes) = some t) : Inv script owners t := by
  obtain ⟨⟨-, hinterrupted, hclosed⟩, hs⟩ := guard_some hs
  obtain ⟨hall, hs⟩ := guard_some hs
  have hlive := h.live hinterrupted hclosed
  split at hs
  · cases hs
    exact h
  · rename_i p hpublication
    cases hs
    obtain ⟨rfl, hp⟩ := publication_prepared hpublication
    have hcontrols : ∀ w ∈ controlsOf p.writes, ∀ x, s.controls.get w.1 = some x →
        x.1 = w.2 ∧ runs s.records x.1 x.2 = true := by
      intro w hw x hget
      have hw := List.all_eq_true.mp hall w hw
      rw [hget, Option.all_some, Bool.and_eq_true, decide_eq_true_iff] at hw
      exact hw
    have hflight := hp.flight h.owned (h.commit_sound hlive hp hlawful hcontrols)
    have hfound := hp.live h hlawful
    have howned := hp.ownedBy h.owned
    exact
      { h with
        owned := { h.owned with inFlight := by rintro q ⟨⟩; exact howned }
        flight := by
          rintro q ⟨⟩
          exact { hflight with }
        live := fun _ _ =>
          { hlive with
            flight := by
              rintro q ⟨⟩
              exact { hfound with } } }

end Commit

end Remote
end Supervisor
end PiCloud
