import PiCloud.Lib.History
import PiCloud.Lib.InsertionMap
import Mathlib.Data.List.Sort

/-!
# Sandbox.BindingView

The bindings of tools to sandboxes: their table, and the view of it that the owner of a session
partition keeps in memory.

* `BindingTable`: the rows, each change of which is announced in the same transaction. A binding is
  never opened again, and its identity is never drawn again.
* `readChange`, `loadView`: what the view reads of the table.
* `View`: the entries by route, the entries by binding, and how a row that was read is taken in.
-/

namespace PiCloud
namespace Sandbox

open Lib

structure RouteKey where
  tenantId : Nat
  runId : Nat
  bindingId : Nat
deriving DecidableEq

def routeKey (tenantId runId bindingId : Nat) : RouteKey := { tenantId, runId, bindingId }

structure SandboxBindingRecord where
  tenantId : Nat
  runId : Nat
  bindingId : Nat
  writerId : Nat
  piSessionId : Nat
  instanceId : Nat
  dispatchClosed : Bool
  revision : Nat
deriving DecidableEq

def SandboxBindingRecord.key (r : SandboxBindingRecord) : RouteKey :=
  routeKey r.tenantId r.runId r.bindingId

structure SandboxBindingChange where
  tenantId : Nat
  piSessionId : Nat
  entityId : Nat
  runId : Nat
  version : Nat
  closed : Bool
deriving DecidableEq

def SandboxBindingChange.key (c : SandboxBindingChange) : RouteKey :=
  routeKey c.tenantId c.runId c.entityId

/-! ## The table -/

structure SandboxToolBinding extends SandboxBindingRecord where
  cancelOutstanding : Bool

/-- `used` are the binding identities that were ever drawn, `sequence` is
`session_control_change_version`, and `changes` are the announcements. -/
structure BindingTable where
  rows : List SandboxToolBinding := []
  used : List Nat := []
  sequence : Nat := 0
  changes : List SandboxBindingChange := []

/-- `pi_cloud_control_change` -/
def controlChange (r : SandboxBindingRecord) (version : Nat) (closed : Bool) :
    SandboxBindingChange where
  tenantId := r.tenantId
  piSessionId := r.piSessionId
  entityId := r.bindingId
  runId := r.runId
  version := version
  closed := closed

namespace BindingTable

/-- An insert, with the trigger. -/
def register (t : BindingTable) (r : SandboxBindingRecord) : BindingTable :=
  if r.bindingId ∈ t.used then t
  else
    let row := { r with dispatchClosed := false, revision := t.sequence + 1 }
    { rows := t.rows ++ [{ row with cancelOutstanding := false }]
      used := r.bindingId :: t.used
      sequence := t.sequence + 1
      changes := t.changes ++ [controlChange row row.revision row.dispatchClosed] }

/-- What `closeBinding`, `closeWriter` and `adopt` do to one row, with the trigger: a row that is
closed stays closed. -/
def update (t : BindingTable) (bindingId : Nat) (dispatchClosed cancelOutstanding : Bool)
    (instanceId : Nat) : BindingTable :=
  match t.rows.find? fun r => r.bindingId = bindingId with
  | none => t
  | some old =>
    let closed := old.dispatchClosed || dispatchClosed
    let cancel := old.cancelOutstanding || cancelOutstanding
    if closed = old.dispatchClosed ∧ cancel = old.cancelOutstanding ∧ instanceId = old.instanceId then t
    else
      let row := { old.toSandboxBindingRecord with
        dispatchClosed := closed, instanceId := instanceId, revision := t.sequence + 1 }
      { t with
        rows := t.rows.map fun r =>
          if r.bindingId = bindingId then { row with cancelOutstanding := cancel } else r
        sequence := t.sequence + 1
        changes := t.changes ++ [controlChange row row.revision closed] }

/-- A delete, with the trigger. -/
def delete (t : BindingTable) (bindingId : Nat) : BindingTable :=
  match t.rows.find? fun r => r.bindingId = bindingId with
  | none => t
  | some old =>
    { t with
      rows := t.rows.filter fun r => r.bindingId ≠ bindingId
      sequence := t.sequence + 1
      changes := t.changes ++ [controlChange old.toSandboxBindingRecord (t.sequence + 1) true] }

def readChange (t : BindingTable) (c : SandboxBindingChange) : Option SandboxBindingRecord :=
  (t.rows.find? fun r => r.tenantId = c.tenantId ∧ r.piSessionId = c.piSessionId ∧
    r.runId = c.runId ∧ r.bindingId = c.entityId).map (·.toSandboxBindingRecord)

end BindingTable

structure BindingViewPage where
  partitions : List Nat
  partitionCount : Nat
  after : Option (Nat × Nat)

def bindingViewPageSize : Nat := 256

/-- The order of `(run_id, binding_id)`. -/
def rowBefore (a b : Nat × Nat) : Bool := a.1 < b.1 || (a.1 = b.1 && a.2 < b.2)

def BindingTable.loadView (sessionHash : Nat → Nat) (t : BindingTable) (page : BindingViewPage) :
    List SandboxBindingRecord :=
  if page.partitions.isEmpty then []
  else
    let rows := (t.rows.map (·.toSandboxBindingRecord)).filter fun r =>
      page.partitions.contains (sessionHash r.piSessionId % page.partitionCount) &&
        page.after.all fun after => rowBefore after (r.runId, r.bindingId)
    (rows.insertionSort fun a b =>
      rowBefore (b.runId, b.bindingId) (a.runId, a.bindingId) = false).take bindingViewPageSize

theorem BindingTable.mem_loadView {sessionHash : Nat → Nat} {t : BindingTable}
    {page : BindingViewPage} {r : SandboxBindingRecord} (h : r ∈ t.loadView sessionHash page) :
    ∃ row ∈ t.rows, row.toSandboxBindingRecord = r := by
  unfold loadView at h
  split at h
  · cases h
  · have hsorted := List.mem_of_mem_take h
    rw [List.mem_insertionSort] at hsorted
    exact List.mem_map.mp (List.mem_filter.mp hsorted).1

namespace BindingTable

/-- Identities are drawn once, and an announcement has the scope of its row. -/
structure Inv (t : BindingTable) : Prop where
  drawn : ∀ r ∈ t.rows, r.bindingId ∈ t.used
  rows : ∀ r ∈ t.rows, ∀ q ∈ t.rows, r.bindingId = q.bindingId → r = q
  announced : ∀ c ∈ t.changes, c.entityId ∈ t.used
  scope : ∀ c ∈ t.changes, ∀ r ∈ t.rows, r.bindingId = c.entityId →
    r.tenantId = c.tenantId ∧ r.runId = c.runId ∧ r.piSessionId = c.piSessionId

def Dead (t : BindingTable) (k : RouteKey) : Prop :=
  k.bindingId ∈ t.used ∧ ∀ r ∈ t.rows, r.key = k → r.dispatchClosed = true

variable {t : BindingTable}

theorem Inv.dead_of_closed (h : t.Inv) {r : SandboxToolBinding} (hr : r ∈ t.rows)
    (hclosed : r.dispatchClosed = true) : t.Dead r.key := by
  refine ⟨h.drawn r hr, fun q hq hkey => ?_⟩
  have hid : q.bindingId = r.bindingId := congrArg RouteKey.bindingId hkey
  rw [h.rows q hq r hr hid]
  exact hclosed

theorem mem_of_readChange {c : SandboxBindingChange} {r : SandboxBindingRecord}
    (h : t.readChange c = some r) :
    ∃ row ∈ t.rows, row.toSandboxBindingRecord = r ∧ r.key = c.key := by
  unfold readChange at h
  obtain ⟨row, hfind, rfl⟩ := Option.map_eq_some_iff.mp h
  have hmatch := List.find?_some hfind
  rw [decide_eq_true_eq] at hmatch
  obtain ⟨htenant, _, hrun, hid⟩ := hmatch
  refine ⟨row, List.mem_of_find?_eq_some hfind, rfl, ?_⟩
  unfold SandboxBindingRecord.key SandboxBindingChange.key
  rw [htenant, hrun, hid]

theorem Inv.dead_of_absent (h : t.Inv) {c : SandboxBindingChange} (hc : c ∈ t.changes)
    (hnone : t.readChange c = none) : t.Dead c.key := by
  refine ⟨h.announced c hc, fun r hr hkey => ?_⟩
  have hid : r.bindingId = c.entityId := congrArg RouteKey.bindingId hkey
  obtain ⟨htenant, hrun, hsession⟩ := h.scope c hc r hr hid
  unfold readChange at hnone
  rw [Option.map_eq_none_iff, List.find?_eq_none] at hnone
  exact absurd (decide_eq_true ⟨htenant, hsession, hrun, hid⟩) (hnone r hr)

theorem Dead.readChange {c : SandboxBindingChange} (h : t.Dead c.key) :
    ∀ r, t.readChange c = some r → r.dispatchClosed = true := by
  intro r hr
  obtain ⟨row, hrow, rfl, hkey⟩ := mem_of_readChange hr
  exact h.2 row hrow hkey

/-- What a statement does to the table. -/
structure Follows (t t' : BindingTable) : Prop where
  inv : t'.Inv
  dead : ∀ k, t.Dead k → t'.Dead k
  changes : ∀ c ∈ t.changes, c ∈ t'.changes

theorem Inv.refl (h : t.Inv) : t.Follows t := ⟨h, fun _ hk => hk, fun _ hc => hc⟩

theorem Inv.register (h : t.Inv) (r : SandboxBindingRecord) : t.Follows (t.register r) := by
  unfold BindingTable.register
  split
  · exact h.refl
  · rename_i hfresh
    dsimp only
    have hother : ∀ q ∈ t.rows, q.bindingId ≠ r.bindingId := fun q hq heq =>
      hfresh (heq ▸ h.drawn q hq)
    refine ⟨⟨?_, ?_, ?_, ?_⟩, ?_, fun c hc => List.mem_append_left _ hc⟩
    · intro q hq
      obtain hq | rfl := mem_snoc.mp hq
      · exact List.mem_cons_of_mem _ (h.drawn q hq)
      · exact List.mem_cons_self
    · exact unique_snoc h.rows hother
    · intro c hc
      obtain hc | rfl := mem_snoc.mp hc
      · exact List.mem_cons_of_mem _ (h.announced c hc)
      · exact List.mem_cons_self
    · intro c hc q hq hid
      rw [mem_snoc] at hc hq
      obtain hc | rfl := hc <;> obtain hq | rfl := hq
      · exact h.scope c hc q hq hid
      · exact absurd (hid ▸ h.announced c hc) hfresh
      · exact absurd hid (hother q hq)
      · exact ⟨rfl, rfl, rfl⟩
    · rintro k ⟨hused, hclosed⟩
      refine ⟨List.mem_cons_of_mem _ hused, fun q hq hkey => ?_⟩
      obtain hq | rfl := mem_snoc.mp hq
      · exact hclosed q hq hkey
      · have hid : r.bindingId = k.bindingId := congrArg RouteKey.bindingId hkey
        exact absurd (hid ▸ hused) hfresh

theorem Inv.rewrite (h : t.Inv) {rows : List SandboxToolBinding} {sequence : Nat}
    {old : SandboxToolBinding} (hold : old ∈ t.rows) (version : Nat) (closed : Bool)
    (hrows : ∀ r ∈ rows, ∃ q ∈ t.rows, r.bindingId = q.bindingId ∧ r.tenantId = q.tenantId ∧
      r.runId = q.runId ∧ r.piSessionId = q.piSessionId ∧
      (q.dispatchClosed = true → r.dispatchClosed = true))
    (hinj : ∀ r ∈ rows, ∀ q ∈ rows, r.bindingId = q.bindingId → r = q) :
    t.Follows { t with
      rows, sequence
      changes := t.changes ++ [controlChange old.toSandboxBindingRecord version closed] } := by
  refine ⟨⟨?_, hinj, ?_, ?_⟩, ?_, fun c hc => List.mem_append_left _ hc⟩
  · intro r hr
    obtain ⟨q, hq, hid, _⟩ := hrows r hr
    exact (show r.bindingId ∈ t.used from hid ▸ h.drawn q hq)
  · intro c hc
    obtain hc | rfl := mem_snoc.mp hc
    · exact h.announced c hc
    · exact h.drawn old hold
  · intro c hc r hr hid
    obtain ⟨q, hq, hqid, htenant, hrun, hsession, _⟩ := hrows r hr
    rw [hqid] at hid
    rw [htenant, hrun, hsession]
    obtain hc | rfl := mem_snoc.mp hc
    · exact h.scope c hc q hq hid
    · obtain rfl := h.rows q hq old hold hid
      exact ⟨rfl, rfl, rfl⟩
  · rintro k ⟨hused, hclosed⟩
    refine ⟨hused, fun r hr hkey => ?_⟩
    obtain ⟨q, hq, hid, htenant, hrun, _, hkeep⟩ := hrows r hr
    refine hkeep (hclosed q hq ?_)
    rw [← hkey]
    unfold SandboxBindingRecord.key
    rw [hid, htenant, hrun]

theorem Inv.update (h : t.Inv) (bindingId : Nat) (dispatchClosed cancelOutstanding : Bool)
    (instanceId : Nat) :
    t.Follows (t.update bindingId dispatchClosed cancelOutstanding instanceId) := by
  unfold BindingTable.update
  split
  · exact h.refl
  · rename_i old hfind
    dsimp only
    split
    · exact h.refl
    · have hold := List.mem_of_find?_eq_some hfind
      have hid : old.bindingId = bindingId := by simpa using List.find?_some hfind
      refine h.rewrite hold _ _ ?_ ?_
      · intro r hr
        obtain ⟨q, hq, rfl⟩ := List.mem_map.mp hr
        split
        · rename_i hqid
          obtain rfl := h.rows q hq old hold (hqid.trans hid.symm)
          refine ⟨q, hq, rfl, rfl, rfl, rfl, fun hclosed => ?_⟩
          exact (Bool.or_eq_true _ _).mpr (.inl hclosed)
        · exact ⟨q, hq, rfl, rfl, rfl, rfl, fun hclosed => hclosed⟩
      · intro r hr q hq heq
        obtain ⟨r₀, hr₀, rfl⟩ := List.mem_map.mp hr
        obtain ⟨q₀, hq₀, rfl⟩ := List.mem_map.mp hq
        split at heq <;> split at heq
        · rename_i hrid hqid
          rw [if_pos hrid, if_pos hqid]
        · rename_i hrid hqid
          exact absurd (heq.symm.trans hid) hqid
        · rename_i hrid hqid
          exact absurd (heq.trans hid) hrid
        · rename_i hrid hqid
          rw [if_neg hrid, if_neg hqid]
          exact h.rows r₀ hr₀ q₀ hq₀ heq

theorem Inv.delete (h : t.Inv) (bindingId : Nat) : t.Follows (t.delete bindingId) := by
  unfold BindingTable.delete
  split
  · exact h.refl
  · rename_i old hfind
    refine h.rewrite (List.mem_of_find?_eq_some hfind) _ _ ?_ ?_
    · intro r hr
      exact ⟨r, (List.mem_filter.mp hr).1, rfl, rfl, rfl, rfl, fun hclosed => hclosed⟩
    · intro r hr q hq
      exact h.rows r (List.mem_filter.mp hr).1 q (List.mem_filter.mp hq).1

end BindingTable

/-! ## The view -/

structure Entry where
  bytes : Nat := 0
  version : Int := -1
  route : Option SandboxBindingRecord := none
  readers : Nat := 0
  closed : Bool := false

/-- `byteLength` is the length of a record as JSON text. -/
structure ViewOptions where
  partitionFor : Nat → Nat
  partitionCount : Nat
  maximumBytes : Nat := 64 * 1024 * 1024
  maximumEntries : Nat := 65536
  byteLength : SandboxBindingRecord → Nat

/-- Entries are cells of `heap`: a reader holds on to its cell while the map may drop it. -/
structure SandboxBindingView where
  entries : InsertionMap RouteKey Nat := {}
  bindings : InsertionMap Nat Nat := {}
  heap : Nat → Entry := fun _ => {}
  fresh : Nat := 0
  partitions : List Nat := []
  generation : Nat := 0
  ready : Bool := false
  bytes : Nat := 0

namespace SandboxBindingView

def reset (v : SandboxBindingView) : SandboxBindingView :=
  { v with
    entries := {}, bindings := {}, partitions := [], generation := v.generation + 1, ready := false
    bytes := 0 }

def setEntry (v : SandboxBindingView) (e : Nat) (entry : Entry) : SandboxBindingView :=
  { v with heap := Function.update v.heap e entry }

def newEntry (v : SandboxBindingView) (k : RouteKey) : SandboxBindingView :=
  { v.setEntry v.fresh {} with entries := v.entries.set k v.fresh, fresh := v.fresh + 1 }

def disposable (v : SandboxBindingView) : Option RouteKey :=
  (v.entries.entries.find? fun e => (v.heap e.2).route.isNone && (v.heap e.2).readers == 0).map
    Prod.fst

variable (o : ViewOptions)

def entry (v : SandboxBindingView) (k : RouteKey) : Except String (SandboxBindingView × Nat) :=
  match v.entries.get k with
  | some old => .ok (v, old)
  | none =>
    if o.maximumEntries ≤ v.entries.size then
      match v.disposable with
      | none => .error "Sandbox binding view capacity exceeded"
      | some d => .ok ({ v with entries := v.entries.delete d }.newEntry k, v.fresh)
    else .ok (v.newEntry k, v.fresh)

def opens (route : Option SandboxBindingRecord) : Bool := route.any fun r => !r.dispatchClosed

/-- The entry that has taken a row in. -/
def taken (entry : Entry) (route : Option SandboxBindingRecord) (version : Int) : Entry where
  bytes := (route.map o.byteLength).getD 0
  version := max entry.version version
  route := route
  readers := entry.readers
  closed := entry.closed || !opens route

/-- A row in its entry, with the bytes and the bindings that go with it. -/
def takeIn (v : SandboxBindingView) (e : Nat) (route : Option SandboxBindingRecord) (version : Int) :
    SandboxBindingView :=
  { v with
    heap := Function.update v.heap e (taken o (v.heap e) route version)
    bytes := v.bytes - (v.heap e).bytes + (route.map o.byteLength).getD 0
    bindings := match route, (v.heap e).route with
      | some r, _ => v.bindings.set r.bindingId e
      | none, some old => v.bindings.delete old.bindingId
      | none, none => v.bindings }

def apply (v : SandboxBindingView) (e : Nat) (route : Option SandboxBindingRecord) (version : Int) :
    Except String SandboxBindingView :=
  -- Binding identities never reopen.
  if (v.heap e).closed ∧ opens route then .ok v
  else if route.isSome ∧ version < (v.heap e).version then .ok v
  else if o.maximumBytes < (v.takeIn o e route version).bytes then
    .error "Sandbox binding view byte capacity exceeded"
  else .ok (v.takeIn o e route version)

/-- `#change` up to its read. The entry is the one that it reads for. -/
def beginChange (v : SandboxBindingView) (c : SandboxBindingChange) (current closureOnly : Bool) :
    Except String (SandboxBindingView × Option Nat) :=
  if current = false ∨ v.ready = false ∨ o.partitionFor c.piSessionId ∉ v.partitions then
    .error "Sandbox binding view owner is unavailable"
  else do
    let (v, e) ← v.entry o c.key
    if closureOnly = false ∧ (c.version : Int) ≤ (v.heap e).version then return (v, none)
    else return (v.setEntry e { v.heap e with readers := (v.heap e).readers + 1 }, some e)

/-- `#change` after its read, up to its `finally`. -/
def takeChange (v : SandboxBindingView) (generation e : Nat) (c : SandboxBindingChange)
    (closureOnly current : Bool) (row : Option SandboxBindingRecord) :
    Except String SandboxBindingView :=
  if current = false ∨ generation ≠ v.generation then .ok v
  else if row.any fun r => r.revision < c.version then
    .error "Sandbox binding state is behind its committed change"
  else if closureOnly = false ∨ opens row = false then
    v.apply o e row ((row.map (·.revision)).getD c.version : Nat)
  else .ok v

/-- The `finally` of `#change`. -/
def endReading (v : SandboxBindingView) (e : Nat) : SandboxBindingView :=
  v.setEntry e { v.heap e with readers := (v.heap e).readers - 1 }

/-- A row of a page, and whether it could be taken in. -/
def loadRow (v : SandboxBindingView) (row : SandboxBindingRecord) : SandboxBindingView × Bool :=
  if o.partitionFor row.piSessionId ∈ v.partitions then
    match v.entry o row.key with
    | .error _ => (v, false)
    | .ok (v, e) =>
      match v.apply o e (some row) (row.revision : Nat) with
      | .error _ => (v, false)
      | .ok v => (v, true)
  else (v, true)

/-- The rows of a page, up to the first one that cannot be taken in. -/
def loadRows (v : SandboxBindingView) : List SandboxBindingRecord → SandboxBindingView × Bool
  | [] => (v, true)
  | row :: rows =>
    match v.loadRow o row with
    | (v, false) => (v, false)
    | (v, true) => loadRows v rows

def get (v : SandboxBindingView) (tenantId : Option Nat) (runId writerId bindingId : Nat) :
    Except String (Option SandboxBindingRecord) :=
  if v.ready = false then .error "Sandbox binding view has not recovered"
  else
    match tenantId with
    | none => .error "Sandbox binding scope has no tenant"
    | some tenantId =>
      let route := (v.entries.get (routeKey tenantId runId bindingId)).bind fun e => (v.heap e).route
      .ok (route.filter fun r => r.writerId = writerId)

def binding (v : SandboxBindingView) (bindingId : Nat) :
    Except String (Option SandboxBindingRecord) :=
  if v.ready = false then .error "Sandbox binding view has not recovered"
  else .ok ((v.bindings.get bindingId).bind fun e => (v.heap e).route)

end SandboxBindingView

end Sandbox
end PiCloud
