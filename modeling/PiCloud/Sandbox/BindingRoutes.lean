import PiCloud.Sandbox.BindingView
import PiCloud.Lib.Slots
import PiCloud.Lib.Record

/-!
# Sandbox.BindingRoutes

The view of the bindings beside their table, with every read suspended for as long as it likes.

* `SandboxBindingView.Inv`: the bytes are counted, every entry has its own key, and a closed entry has
  no open route.
* `Routing`: the table, the view, the loads and the reads under way; `act` is a step of any of them.
* `Sealed`: a binding that the view cannot return open any more, kept by every step of a generation.
* `closed_never_reopens`: the view after a closed binding was recorded.
-/

namespace PiCloud
namespace Sandbox

open Lib

namespace SandboxBindingView

variable {o : ViewOptions} {v v' : SandboxBindingView}

structure Inv (o : ViewOptions) (v : SandboxBindingView) : Prop where
  below : ∀ k e, v.entries.get k = some e → e < v.fresh
  inj : ∀ k j e, v.entries.get k = some e → v.entries.get j = some e → k = j
  total : v.bytes = v.entries.sum fun e => (v.heap e).bytes
  bound : v.bytes ≤ o.maximumBytes
  vacant : ∀ e, (v.heap e).route = none → (v.heap e).bytes = 0
  routed : ∀ k e r, v.entries.get k = some e → (v.heap e).route = some r → r.key = k
  bindings : ∀ b e, v.bindings.get b = some e → ∃ r, (v.heap e).route = some r ∧ r.bindingId = b ∧
    v.entries.get r.key = some e
  shut : ∀ e, (v.heap e).closed = true → opens (v.heap e).route = false
  unused : ∀ e, v.fresh ≤ e → v.heap e = {}

/-- What a step within a generation does to the cells. -/
structure Follows (v v' : SandboxBindingView) : Prop where
  generation : v'.generation = v.generation
  ready : v'.ready = v.ready
  partitions : v'.partitions = v.partitions
  fresh : v.fresh ≤ v'.fresh
  version : ∀ e, (v.heap e).version ≤ (v'.heap e).version
  closed : ∀ e, (v.heap e).closed = true → (v'.heap e).closed = true

theorem Follows.refl (v : SandboxBindingView) : v.Follows v :=
  ⟨rfl, rfl, rfl, Nat.le_refl _, fun _ => le_refl _, fun _ h => h⟩

theorem Follows.trans {v'' : SandboxBindingView} (h : v.Follows v') (h' : v'.Follows v'') :
    v.Follows v'' :=
  ⟨h'.generation.trans h.generation, h'.ready.trans h.ready, h'.partitions.trans h.partitions,
    Nat.le_trans h.fresh h'.fresh, fun e => le_trans (h.version e) (h'.version e),
    fun e he => h'.closed e (h.closed e he)⟩

theorem Inv.empty : ({} : SandboxBindingView).Inv o where
  below _ _ h := by cases h
  inj _ _ _ h := by cases h
  total := rfl
  bound := Nat.zero_le _
  vacant _ _ := rfl
  routed _ _ _ h := by cases h
  bindings _ _ h := by cases h
  shut _ h := by cases h
  unused _ _ := rfl

theorem Inv.reset (h : v.Inv o) : v.reset.Inv o where
  below _ _ h := by cases h
  inj _ _ _ h := by cases h
  total := rfl
  bound := Nat.zero_le _
  vacant := h.vacant
  routed _ _ _ h := by cases h
  bindings _ _ h := by cases h
  shut := h.shut
  unused := h.unused

theorem Inv.drop (h : v.Inv o) {d : RouteKey} {e : Nat} (hd : v.entries.get d = some e)
    (hroute : (v.heap e).route = none) : ({ v with entries := v.entries.delete d }).Inv o := by
  have hget : ∀ k e', (v.entries.delete d).get k = some e' → v.entries.get k = some e' := by
    intro k e' hk
    exact InsertionMap.get_delete_some hk
  refine ⟨fun k e' hk => h.below k e' (hget k e' hk),
    fun k j e' hk hj => h.inj k j e' (hget k e' hk) (hget j e' hj), ?_, h.bound, h.vacant,
    fun k e' r hk hr => h.routed k e' r (hget k e' hk) hr, ?_, h.shut, h.unused⟩
  · have hsum := InsertionMap.sum_delete (f := fun e => (v.heap e).bytes) hd
    dsimp only at hsum ⊢
    rw [h.vacant e hroute] at hsum
    rw [h.total, ← hsum]
    rfl
  · intro b e' hb
    obtain ⟨r, hr, hid, hkey⟩ := h.bindings b e' hb
    refine ⟨r, hr, hid, ?_⟩
    dsimp only
    rw [InsertionMap.get_delete, if_neg]
    · exact hkey
    · intro hkd
      rw [hkd, hd] at hkey
      cases hkey
      rw [hroute] at hr
      cases hr

theorem newEntry_heap (h : v.Inv o) (k : RouteKey) : (v.newEntry k).heap = v.heap := by
  unfold newEntry setEntry
  dsimp only
  rw [← h.unused v.fresh (Nat.le_refl _)]
  exact Function.update_eq_self ..

theorem Inv.newEntry (h : v.Inv o) {k : RouteKey} (hk : v.entries.get k = none) :
    (v.newEntry k).Inv o := by
  have hheap := newEntry_heap h k
  have hget : ∀ j e, (v.newEntry k).entries.get j = some e →
      j = k ∧ e = v.fresh ∨ j ≠ k ∧ v.entries.get j = some e := by
    intro j e hj
    have hj' : (v.entries.set k v.fresh).get j = some e := hj
    rw [InsertionMap.get_set] at hj'
    split at hj'
    · rename_i hjk
      cases hj'
      exact .inl ⟨hjk, rfl⟩
    · rename_i hjk
      exact .inr ⟨hjk, hj'⟩
  have hfresh : v.heap v.fresh = {} := h.unused _ (Nat.le_refl _)
  refine ⟨fun j e hj => ?_, fun j i e hj hi => ?_, ?_, h.bound, fun e => ?_, fun j e r hj hr => ?_,
    fun b e hb => ?_, fun e => ?_, fun e he => ?_⟩
  · obtain ⟨_, rfl⟩ | ⟨_, hj⟩ := hget j e hj
    · exact Nat.lt_succ_self _
    · exact Nat.lt_succ_of_lt (h.below j e hj)
  · obtain ⟨hjk, hje⟩ | ⟨_, hjv⟩ := hget j e hj <;> obtain ⟨hik, hie⟩ | ⟨_, hiv⟩ := hget i e hi
    · exact hjk.trans hik.symm
    · exact absurd (hje ▸ h.below i e hiv) (Nat.lt_irrefl _)
    · exact absurd (hie ▸ h.below j e hjv) (Nat.lt_irrefl _)
    · exact h.inj j i e hjv hiv
  · rw [hheap]
    have hsum := InsertionMap.sum_set (f := fun e => (v.heap e).bytes) v.entries k v.fresh hk
    rw [hfresh, ← h.total] at hsum
    exact hsum.symm
  · rw [hheap]
    exact h.vacant e
  · rw [hheap] at hr
    obtain ⟨_, rfl⟩ | ⟨_, hj⟩ := hget j e hj
    · rw [hfresh] at hr
      cases hr
    · exact h.routed j e r hj hr
  · obtain ⟨r, hr, hid, hkey⟩ := h.bindings b e hb
    refine ⟨r, by rw [hheap]; exact hr, hid, ?_⟩
    have hne : r.key ≠ k := fun heq => by
      rw [heq, hk] at hkey
      cases hkey
    exact (InsertionMap.get_set_ne _ _ hne).trans hkey
  · rw [hheap]
    exact h.shut e
  · rw [hheap]
    exact h.unused e (Nat.le_of_succ_le he)

theorem disposable_some {d : RouteKey} (h : v.disposable = some d) :
    ∃ e, v.entries.get d = some e ∧ (v.heap e).route = none ∧ (v.heap e).readers = 0 := by
  unfold disposable at h
  obtain ⟨⟨k, e⟩, hfind, rfl⟩ := Option.map_eq_some_iff.mp h
  have hcond := List.find?_some hfind
  dsimp only at hcond
  rw [Bool.and_eq_true, Option.isNone_iff_eq_none, beq_iff_eq] at hcond
  exact ⟨e, InsertionMap.mem_entries.mp (List.mem_of_find?_eq_some hfind), hcond.1, hcond.2⟩

/-- What is found or made under a key: the cells stay as they are, and what is dropped has neither
route nor reader. -/
structure Opened (v v' : SandboxBindingView) (k : RouteKey) (e : Nat) : Prop where
  follows : v.Follows v'
  found : v'.entries.get k = some e
  heap : v'.heap = v.heap
  kept : ∀ j e', j ≠ k → v'.entries.get j = some e' → v.entries.get j = some e'
  dropped : ∀ j e', v.entries.get j = some e' → v'.entries.get j = some e' ∨
    v'.entries.get j = none ∧ (v.heap e').route = none ∧ (v.heap e').readers = 0
  made : v.entries.get k = none → e = v.fresh

theorem Inv.entry (h : v.Inv o) {k : RouteKey} {e : Nat} (hok : v.entry o k = .ok (v', e)) :
    v'.Inv o ∧ v.Opened v' k e := by
  unfold SandboxBindingView.entry at hok
  split at hok
  · rename_i old hold
    cases hok
    exact ⟨h, .refl _, hold, rfl, fun _ _ _ hj => hj, fun _ _ hj => .inl hj, fun hnone => by
      rw [hold] at hnone
      cases hnone⟩
  · rename_i hnone
    have hnew : ∀ w : SandboxBindingView, w.Inv o → w.entries.get k = none → w.heap = v.heap →
        w.fresh = v.fresh → w.generation = v.generation → w.ready = v.ready →
        w.partitions = v.partitions →
        (∀ j e', w.entries.get j = some e' → v.entries.get j = some e') →
        (∀ j e', v.entries.get j = some e' → w.entries.get j = some e' ∨
          w.entries.get j = none ∧ (v.heap e').route = none ∧ (v.heap e').readers = 0) →
        (w.newEntry k).Inv o ∧ v.Opened (w.newEntry k) k v.fresh := by
      intro w hw hwk hheap hfresh hgeneration hready hpartitions hkept hdropped
      have hnewheap : (w.newEntry k).heap = v.heap := (newEntry_heap hw k).trans hheap
      have hset : ∀ j, (w.newEntry k).entries.get j
          = if j = k then some v.fresh else w.entries.get j := fun j => by
        rw [← hfresh]
        exact InsertionMap.get_set ..
      refine ⟨hw.newEntry hwk, ⟨hgeneration, hready, hpartitions, ?_, fun e => ?_, fun e => ?_⟩,
        ?_, hnewheap, fun j e' hjk hj => ?_, fun j e' hj => ?_, fun _ => rfl⟩
      · rw [← hfresh]
        exact Nat.le_succ _
      · rw [hnewheap]
      · rw [hnewheap]
        exact fun he => he
      · rw [hset, if_pos rfl]
      · rw [hset, if_neg hjk] at hj
        exact hkept j e' hj
      · have hjk : j ≠ k := fun heq => by
          rw [heq, hnone] at hj
          cases hj
        rw [hset, if_neg hjk]
        exact hdropped j e' hj
    split at hok
    · split at hok
      · cases hok
      · rename_i d hdisposable
        cases hok
        obtain ⟨e, hd, hroute, hreaders⟩ := disposable_some hdisposable
        refine hnew { v with entries := v.entries.delete d } (h.drop hd hroute) ?_ rfl rfl rfl rfl
          rfl ?_ ?_
        · dsimp only
          rw [InsertionMap.get_delete, hnone, ite_self]
        · intro j e' hj
          dsimp only at hj
          exact InsertionMap.get_delete_some hj
        · intro j e' hj
          dsimp only
          rw [InsertionMap.get_delete]
          split
          · rename_i hjd
            rw [hjd, hd] at hj
            cases hj
            exact .inr ⟨rfl, hroute, hreaders⟩
          · exact .inl hj
    · cases hok
      exact hnew v h hnone rfl rfl rfl rfl rfl (fun _ _ hj => hj) fun _ _ hj => .inl hj

/-- What is written into one cell that is no reader's business. -/
structure Wrote (v v' : SandboxBindingView) (e : Nat) : Prop where
  follows : v.Follows v'
  entries : v'.entries = v.entries
  fresh : v'.fresh = v.fresh
  other : ∀ e', e' ≠ e → v'.heap e' = v.heap e'
  readers : (v'.heap e).readers = (v.heap e).readers

theorem takeIn_heap_self (v : SandboxBindingView) (e : Nat) (route : Option SandboxBindingRecord)
    (version : Int) : (v.takeIn o e route version).heap e = taken o (v.heap e) route version :=
  Function.update_self ..

theorem takeIn_heap_ne (v : SandboxBindingView) {e e' : Nat} (route : Option SandboxBindingRecord)
    (version : Int) (h : e' ≠ e) : (v.takeIn o e route version).heap e' = v.heap e' :=
  Function.update_of_ne h ..

theorem takeIn_bindings {e : Nat} {route : Option SandboxBindingRecord} {version : Int} {b e' : Nat}
    (h : (v.takeIn o e route version).bindings.get b = some e') :
    (∃ r, route = some r ∧ b = r.bindingId ∧ e' = e) ∨
      v.bindings.get b = some e' ∧ (∀ r, route = some r → b ≠ r.bindingId) ∧
        ∀ old, route = none → (v.heap e).route = some old → b ≠ old.bindingId := by
  unfold takeIn at h
  dsimp only at h
  cases route with
  | some r =>
    dsimp only at h
    rw [InsertionMap.get_set] at h
    split at h
    · rename_i hb
      cases h
      exact .inl ⟨r, rfl, hb, rfl⟩
    · rename_i hb
      exact .inr ⟨h, fun r' hr' => by
        cases hr'
        exact hb, by simp⟩
  | none =>
    cases hold : (v.heap e).route with
    | none =>
      rw [hold] at h
      exact .inr ⟨h, by simp, by simp⟩
    | some old =>
      rw [hold] at h
      dsimp only at h
      obtain ⟨hb, h⟩ := InsertionMap.get_delete_iff.mp h
      exact .inr ⟨h, by simp, fun old' _ hold' => by
        cases hold'
        exact hb⟩

theorem Inv.takeIn_bytes (h : v.Inv o) {k : RouteKey} {e : Nat} (he : v.entries.get k = some e)
    (route : Option SandboxBindingRecord) (version : Int) :
    (v.takeIn o e route version).bytes
      = v.entries.sum fun e' => ((v.takeIn o e route version).heap e').bytes := by
  have hsum := InsertionMap.sum_update (m := v.entries) (f := fun e => (v.heap e).bytes)
    (g := fun e' => ((v.takeIn o e route version).heap e').bytes) he fun j w hj hjk => by
      have hne : w ≠ e := by
        rintro rfl
        exact hjk (h.inj j k w hj he)
      rw [takeIn_heap_ne v route version hne]
  have hdelete := InsertionMap.sum_delete (f := fun e => (v.heap e).bytes) he
  rw [takeIn_heap_self, ← h.total] at hsum
  rw [← h.total] at hdelete
  have htaken : (taken o (v.heap e) route version).bytes = (route.map o.byteLength).getD 0 := rfl
  have hbytes : (v.takeIn o e route version).bytes
      = v.bytes - (v.heap e).bytes + (route.map o.byteLength).getD 0 := rfl
  omega

theorem Inv.takeIn (h : v.Inv o) {k : RouteKey} {e : Nat} (he : v.entries.get k = some e)
    {route : Option SandboxBindingRecord} (hroute : ∀ r, route = some r → r.key = k) (version : Int)
    (hshut : (v.heap e).closed = true → opens route = false)
    (hbytes : (v.takeIn o e route version).bytes ≤ o.maximumBytes) :
    (v.takeIn o e route version).Inv o := by
  refine ⟨h.below, h.inj, h.takeIn_bytes he route version, hbytes, fun e' hnone => ?_,
    fun j e' r hj hr => ?_, fun b e' hb => ?_, fun e' hclosed => ?_, fun e' hle => ?_⟩
  · by_cases hee : e' = e
    · subst hee
      rw [takeIn_heap_self] at hnone ⊢
      have hroute' : route = none := hnone
      rw [hroute']
      rfl
    · rw [takeIn_heap_ne _ _ _ hee] at hnone ⊢
      exact h.vacant e' hnone
  · by_cases hee : e' = e
    · subst hee
      rw [takeIn_heap_self] at hr
      rw [hroute r hr]
      exact h.inj k j e' he hj
    · rw [takeIn_heap_ne _ _ _ hee] at hr
      exact h.routed j e' r hj hr
  · obtain ⟨r, hr, hbr, rfl⟩ | ⟨hold, hset, hdelete⟩ := takeIn_bindings hb
    · refine ⟨r, ?_, hbr.symm, ?_⟩
      · rw [takeIn_heap_self]
        exact hr
      · rw [hroute r hr]
        exact he
    · obtain ⟨r, hr, hid, hkey⟩ := h.bindings b e' hold
      have hee : e' ≠ e := by
        rintro rfl
        have hrk : r.key = k := h.routed k e' r he hr
        cases hnew : route with
        | none => exact hdelete r hnew hr hid.symm
        | some q =>
          have hqk : q.key = r.key := (hroute q hnew).trans hrk.symm
          refine hset q hnew (hid.symm.trans ?_)
          exact (congrArg RouteKey.bindingId hqk).symm
      exact ⟨r, by rw [takeIn_heap_ne _ _ _ hee]; exact hr, hid, hkey⟩
  · by_cases hee : e' = e
    · subst hee
      rw [takeIn_heap_self] at hclosed ⊢
      obtain hold | hnew := (Bool.or_eq_true _ _).mp hclosed
      · exact hshut hold
      · exact (Bool.not_eq_true' _).mp hnew
    · rw [takeIn_heap_ne _ _ _ hee] at hclosed ⊢
      exact h.shut e' hclosed
  · have hlt := h.below k e he
    have hee : e' ≠ e := by
      rintro rfl
      exact Nat.not_lt.mpr hle hlt
    rw [takeIn_heap_ne _ _ _ hee]
    exact h.unused e' hle

theorem takeIn_wrote (v : SandboxBindingView) (e : Nat) (route : Option SandboxBindingRecord)
    (version : Int) : v.Wrote (v.takeIn o e route version) e := by
  refine ⟨⟨rfl, rfl, rfl, Nat.le_refl _, fun e' => ?_, fun e' hclosed => ?_⟩, rfl, rfl,
    fun e' hee => takeIn_heap_ne _ _ _ hee, ?_⟩
  · by_cases hee : e' = e
    · subst hee
      rw [takeIn_heap_self]
      exact le_max_left _ _
    · rw [takeIn_heap_ne _ _ _ hee]
  · by_cases hee : e' = e
    · subst hee
      rw [takeIn_heap_self]
      exact (Bool.or_eq_true _ _).mpr (.inl hclosed)
    · rw [takeIn_heap_ne _ _ _ hee]
      exact hclosed
  · rw [takeIn_heap_self]
    rfl

theorem Inv.apply (h : v.Inv o) {k : RouteKey} {e : Nat} (he : v.entries.get k = some e)
    {route : Option SandboxBindingRecord} (hroute : ∀ r, route = some r → r.key = k)
    {version : Int} (hok : v.apply o e route version = .ok v') :
    v'.Inv o ∧ v.Wrote v' e ∧
      (v' = v ∧ ((v.heap e).closed = true ∨ route.isSome ∧ version < (v.heap e).version) ∨
        v'.heap e = taken o (v.heap e) route version ∧
          ((v.heap e).closed = true → opens route = false)) := by
  have hsame : v.Wrote v e := ⟨.refl _, rfl, rfl, fun _ _ => rfl, rfl⟩
  unfold SandboxBindingView.apply at hok
  split at hok
  · rename_i hreopen
    cases hok
    exact ⟨h, hsame, .inl ⟨rfl, .inl hreopen.1⟩⟩
  · rename_i hreopen
    split at hok
    · rename_i hstale
      cases hok
      exact ⟨h, hsame, .inl ⟨rfl, .inr hstale⟩⟩
    · split at hok
      · cases hok
      · rename_i hbytes
        cases hok
        have hshut : (v.heap e).closed = true → opens route = false := fun hclosed => by
          cases hopens : opens route with
          | false => rfl
          | true => exact absurd ⟨hclosed, hopens⟩ hreopen
        exact ⟨h.takeIn he hroute version hshut (Nat.le_of_not_lt hbytes), takeIn_wrote v e _ _,
          .inr ⟨takeIn_heap_self v e _ _, hshut⟩⟩

def setReaders (v : SandboxBindingView) (e n : Nat) : SandboxBindingView :=
  v.setEntry e { v.heap e with readers := n }

theorem setReaders_heap (v : SandboxBindingView) (e n e' : Nat) :
    ((v.setReaders e n).heap e') = { v.heap e' with
      readers := if e' = e then n else (v.heap e').readers } := by
  unfold setReaders setEntry
  dsimp only
  rw [Function.update_apply]
  split
  · rename_i hee
    rw [hee]
  · rfl

theorem setReaders_follows (v : SandboxBindingView) (e n : Nat) : v.Follows (v.setReaders e n) := by
  refine ⟨rfl, rfl, rfl, Nat.le_refl _, fun e' => ?_, fun e' hc => ?_⟩
  · rw [setReaders_heap]
  · rw [setReaders_heap]
    exact hc

theorem Inv.setReaders (h : v.Inv o) {e : Nat} (he : e < v.fresh) (n : Nat) :
    (v.setReaders e n).Inv o := by
  refine ⟨h.below, h.inj, ?_, h.bound, fun e' => ?_, fun k e' r hk => ?_, fun b e' hb => ?_,
    fun e' => ?_, fun e' hle => ?_⟩
  · refine h.total.trans (InsertionMap.sum_congr fun k e' _ => ?_)
    rw [setReaders_heap]
  · rw [setReaders_heap]
    exact h.vacant e'
  · rw [setReaders_heap]
    exact h.routed k e' r hk
  · obtain ⟨r, hr, hid, hkey⟩ := h.bindings b e' hb
    exact ⟨r, by rw [setReaders_heap]; exact hr, hid, hkey⟩
  · rw [setReaders_heap]
    exact h.shut e'
  · have hne : e' ≠ e := fun heq => Nat.not_lt.mpr hle (heq ▸ he)
    rw [setReaders_heap, if_neg hne]
    exact h.unused e' hle

theorem Inv.loadRow (h : v.Inv o) (hrouted : ∀ k e, v.entries.get k = some e →
      (v.heap e).route.isSome) {row : SandboxBindingRecord} {ok : Bool}
    (hrow : v.loadRow o row = (v', ok)) :
    v'.Inv o ∧ v.Follows v' ∧ (∀ k e, v.entries.get k = some e → v'.entries.get k = some e) ∧
      (∀ e, (v'.heap e).readers = (v.heap e).readers) ∧
      (ok = true → ∀ k e, v'.entries.get k = some e → (v'.heap e).route.isSome) ∧
      ∀ k e, v'.entries.get k = some e → (v'.heap e).closed = true →
        v.entries.get k = some e ∧ (v.heap e).closed = true ∨
          k = row.key ∧ row.dispatchClosed = true := by
  have hkeep : ∀ (w : SandboxBindingView) e, v.Opened w row.key e →
      ∀ k e', v.entries.get k = some e' → w.entries.get k = some e' := by
    intro w e hopened k e' hk
    obtain hkept | ⟨_, hnone, _⟩ := hopened.dropped k e' hk
    · exact hkept
    · have hsome := hrouted k e' hk
      rw [hnone] at hsome
      cases hsome
  -- an entry that was there, or the one of this row
  have hold : ∀ (w : SandboxBindingView) e, w.Inv o → v.Opened w row.key e →
      ∀ k e', w.entries.get k = some e' → v.entries.get k = some e' ∨
        k = row.key ∧ e' = e ∧ v.heap e = {} := by
    intro w e hw hopened k e' hk
    by_cases hkey : k = row.key
    · rw [hkey, hopened.found] at hk
      cases hk
      cases hget : v.entries.get row.key with
      | none =>
        refine .inr ⟨hkey, rfl, ?_⟩
        rw [hopened.made hget]
        exact h.unused _ (Nat.le_refl _)
      | some old =>
        have hkept := hkeep w e hopened _ _ hget
        rw [hopened.found] at hkept
        cases hkept
        exact .inl (hkey ▸ hget)
    · exact .inl (hopened.kept k e' hkey hk)
  unfold SandboxBindingView.loadRow at hrow
  split at hrow
  · split at hrow
    · cases hrow
      exact ⟨h, .refl _, fun _ _ hk => hk, fun _ => rfl, by rintro ⟨⟩, fun _ _ hk hc => .inl ⟨hk, hc⟩⟩
    · rename_i w e hentry
      obtain ⟨hw, hopened⟩ := h.entry hentry
      split at hrow
      · cases hrow
        refine ⟨hw, hopened.follows, hkeep v' e hopened, fun e' => by rw [hopened.heap], by rintro ⟨⟩,
          fun k e' hk hc => ?_⟩
        rw [hopened.heap] at hc
        obtain hk | ⟨_, rfl, hempty⟩ := hold v' e hw hopened k e' hk
        · exact .inl ⟨hk, hc⟩
        · rw [hempty] at hc
          cases hc
      · rename_i w' happly
        cases hrow
        obtain ⟨hw', hwrote, htaken⟩ := hw.apply hopened.found (fun r hr => by cases hr; rfl) happly
        have hentries : ∀ k e', v'.entries.get k = some e' → v.entries.get k = some e' ∨
            k = row.key ∧ e' = e ∧ v.heap e = {} := fun k e' hk =>
          hold w e hw hopened k e' (hwrote.entries ▸ hk)
        refine ⟨hw', hopened.follows.trans hwrote.follows, fun k e' hk => ?_, fun e' => ?_,
          fun _ k e' hk => ?_, fun k e' hk hc => ?_⟩
        · rw [hwrote.entries]
          exact hkeep w e hopened k e' hk
        · rw [← hopened.heap]
          by_cases hee : e' = e
          · rw [hee]
            exact hwrote.readers
          · rw [hwrote.other e' hee]
        · by_cases hee : e' = e
          · subst hee
            obtain ⟨rfl, hskip⟩ | ⟨htaken, _⟩ := htaken
            · rw [hopened.heap] at hskip ⊢
              obtain hk | ⟨_, _, hempty⟩ := hentries k e' hk
              · exact hrouted k e' hk
              · rw [hempty] at hskip
                obtain hclosed | ⟨_, hversion⟩ := hskip
                · cases hclosed
                · have hpos : (0 : Int) ≤ (row.revision : Nat) := Int.natCast_nonneg _
                  have hneg : ((row.revision : Nat) : Int) < -1 := hversion
                  omega
            · rw [htaken]
              rfl
          · rw [hwrote.other e' hee, hopened.heap]
            obtain hk | ⟨_, heq, _⟩ := hentries k e' hk
            · exact hrouted k e' hk
            · exact absurd heq hee
        · by_cases hee : e' = e
          · subst hee
            have hkey : k = row.key := hw'.inj k row.key e' hk (hwrote.entries ▸ hopened.found)
            obtain ⟨rfl, _⟩ | ⟨htaken, hshut⟩ := htaken
            · rw [hopened.heap] at hc
              obtain hk | ⟨_, _, hempty⟩ := hentries k e' hk
              · exact .inl ⟨hk, hc⟩
              · rw [hempty] at hc
                cases hc
            · rw [htaken] at hc
              refine .inr ⟨hkey, ?_⟩
              obtain hcold | hnew := (Bool.or_eq_true _ _).mp hc
              · have := hshut hcold
                simpa [opens] using this
              · simpa [opens] using hnew
          · rw [hwrote.other e' hee, hopened.heap] at hc
            obtain hk | ⟨_, heq, _⟩ := hentries k e' hk
            · exact .inl ⟨hk, hc⟩
            · exact absurd heq hee
  · cases hrow
    exact ⟨h, .refl _, fun _ _ hk => hk, fun _ => rfl, fun _ => hrouted,
      fun _ _ hk hc => .inl ⟨hk, hc⟩⟩

theorem Inv.loadRows {rows : List SandboxBindingRecord} (h : v.Inv o)
    (hrouted : ∀ k e, v.entries.get k = some e → (v.heap e).route.isSome) {ok : Bool}
    (hrows : v.loadRows o rows = (v', ok)) :
    v'.Inv o ∧ v.Follows v' ∧ (∀ k e, v.entries.get k = some e → v'.entries.get k = some e) ∧
      (∀ e, (v'.heap e).readers = (v.heap e).readers) ∧
      (ok = true → ∀ k e, v'.entries.get k = some e → (v'.heap e).route.isSome) ∧
      ∀ k e, v'.entries.get k = some e → (v'.heap e).closed = true →
        v.entries.get k = some e ∧ (v.heap e).closed = true ∨
          ∃ row ∈ rows, k = row.key ∧ row.dispatchClosed = true := by
  induction rows generalizing v with
  | nil =>
    cases hrows
    exact ⟨h, .refl _, fun _ _ hk => hk, fun _ => rfl, fun _ => hrouted,
      fun _ _ hk hc => .inl ⟨hk, hc⟩⟩
  | cons row rows ih =>
    unfold SandboxBindingView.loadRows at hrows
    split at hrows
    · rename_i w hrow
      cases hrows
      obtain ⟨hw, hfollows, hkeep, hreaders, _, hclosed⟩ := h.loadRow hrouted hrow
      refine ⟨hw, hfollows, hkeep, hreaders, by rintro ⟨⟩, fun k e hk hc => ?_⟩
      obtain hold | hnew := hclosed k e hk hc
      · exact .inl hold
      · exact .inr ⟨row, List.mem_cons_self, hnew⟩
    · rename_i w hrow
      obtain ⟨hw, hfollows, hkeep, hreaders, hall, hclosed⟩ := h.loadRow hrouted hrow
      obtain ⟨hw', hfollows', hkeep', hreaders', hall', hclosed'⟩ := ih hw (hall rfl) hrows
      refine ⟨hw', hfollows.trans hfollows', fun k e hk => hkeep' k e (hkeep k e hk),
        fun e => (hreaders' e).trans (hreaders e), hall', fun k e hk hc => ?_⟩
      obtain ⟨hk, hc⟩ | ⟨q, hq, hnew⟩ := hclosed' k e hk hc
      · obtain hold | hnew := hclosed k e hk hc
        · exact .inl hold
        · exact .inr ⟨row, List.mem_cons_self, hnew⟩
      · exact .inr ⟨q, List.mem_cons_of_mem _ hq, hnew⟩

theorem beginChange_ok {c : SandboxBindingChange}
    {current closureOnly : Bool} {entry : Option Nat}
    (h : v.beginChange o c current closureOnly = .ok (v', entry)) :
    v.ready = true ∧ ∃ w e, v.entry o c.key = .ok (w, e) ∧ (w = v' ∧ none = entry ∨
      w.setReaders e ((w.heap e).readers + 1) = v' ∧ some e = entry) := by
  unfold beginChange at h
  split at h
  · cases h
  · rename_i howner
    have hready : v.ready = true := by
      cases hr : v.ready with
      | true => rfl
      | false => exact absurd (.inr (.inl hr)) howner
    obtain ⟨⟨w, e⟩, hentry, h⟩ := bind_eq_ok.mp h
    refine ⟨hready, w, e, hentry, ?_⟩
    dsimp only at h
    split at h
    · cases h
      exact .inl ⟨rfl, rfl⟩
    · cases h
      exact .inr ⟨rfl, rfl⟩

end SandboxBindingView

/-! ## The system -/

/-- A `load` that waits for a page, or has its rows. -/
structure Load where
  generation : Nat
  partitions : List Nat
  after : Option (Nat × Nat) := none
  rows : Option (List SandboxBindingRecord) := none

/-- A `#change` that waits for its row, or has it. -/
structure Reading where
  generation : Nat
  entry : Nat
  change : SandboxBindingChange
  closureOnly : Bool
  row : Option (Option SandboxBindingRecord) := none

structure Routing where
  table : BindingTable := {}
  view : SandboxBindingView := {}
  loads : List Load := []
  readings : List Reading := []

inductive RoutingAction where
  | register (row : SandboxBindingRecord)
  | update (bindingId : Nat) (dispatchClosed cancelOutstanding : Bool) (instanceId : Nat)
  | delete (bindingId : Nat)
  | reset
  | load (partitions : List Nat)
  /-- the database answers a load, or its query fails -/
  | loadView (i : Nat)
  | loadFailed (i : Nat)
  | loaded (i : Nat) (current : Bool)
  /-- `prepare` (`closureOnly`) or `consume` of an announcement -/
  | change (c : SandboxBindingChange) (current closureOnly : Bool)
  | readChange (i : Nat)
  | readFailed (i : Nat)
  | read (i : Nat) (current : Bool)

namespace Routing

variable (o : ViewOptions) (sessionHash : Nat → Nat)

/-- The rows of a page have arrived. -/
def loaded (s : Routing) (i : Nat) (current : Bool) (l : Load) (rows : List SandboxBindingRecord) :
    Routing :=
  if current = false ∨ l.generation ≠ s.view.generation then
    { s with loads := s.loads.eraseIdx i }
  else
    match s.view.loadRows o rows with
    | (view, false) => { s with view, loads := s.loads.eraseIdx i }
    | (view, true) =>
      if rows.length < bindingViewPageSize then
        { s with view := { view with ready := true }, loads := s.loads.eraseIdx i }
      else
        let after := rows.getLast?.map fun last => (last.runId, last.bindingId)
        { s with view, loads := s.loads.set i { l with after, rows := none } }

def change (s : Routing) (c : SandboxBindingChange) (current closureOnly : Bool) : Routing :=
  if c ∈ s.table.changes then
    match s.view.beginChange o c current closureOnly with
    | .error _ => s
    | .ok (view, none) => { s with view }
    | .ok (view, some entry) =>
      { s with
        view
        readings := s.readings ++
          [{ generation := view.generation, entry, change := c, closureOnly }] }
  else s

/-- The row of a change has arrived. -/
def read (s : Routing) (i : Nat) (current : Bool) (p : Reading)
    (row : Option SandboxBindingRecord) : Routing :=
  let view :=
    match s.view.takeChange o p.generation p.entry p.change p.closureOnly current row with
    | .error _ => s.view
    | .ok view => view
  { s with view := view.endReading p.entry, readings := s.readings.eraseIdx i }

def act (s : Routing) : RoutingAction → Routing
  | .register row => { s with table := s.table.register row }
  | .update bindingId dispatchClosed cancelOutstanding instanceId =>
    { s with table := s.table.update bindingId dispatchClosed cancelOutstanding instanceId }
  | .delete bindingId => { s with table := s.table.delete bindingId }
  | .reset => { s with view := s.view.reset }
  | .load partitions =>
    let view := s.view.reset
    { s with
      view := { view with partitions }
      loads := s.loads ++ [{ generation := view.generation, partitions }] }
  | .loadView i =>
    match s.loads[i]? with
    | none => s
    | some l =>
      let page : BindingViewPage :=
        { partitions := l.partitions, partitionCount := o.partitionCount, after := l.after }
      let rows := s.table.loadView sessionHash page
      { s with loads := s.loads.set i { l with rows := some (l.rows.getD rows) } }
  | .loadFailed i => { s with loads := s.loads.eraseIdx i }
  | .loaded i current =>
    match s.loads[i]? with
    | none => s
    | some l =>
      match l.rows with
      | none => s
      | some rows => s.loaded o i current l rows
  | .change c current closureOnly => s.change o c current closureOnly
  | .readChange i =>
    match s.readings[i]? with
    | none => s
    | some p =>
      let row := s.table.readChange p.change
      { s with readings := s.readings.set i { p with row := some (p.row.getD row) } }
  | .readFailed i =>
    match s.readings[i]? with
    | none => s
    | some p =>
      { s with view := s.view.endReading p.entry, readings := s.readings.eraseIdx i }
  | .read i current =>
    match s.readings[i]? with
    | none => s
    | some p =>
      match p.row with
      | none => s
      | some row => s.read o i current p row

def run (s : Routing) (actions : List RoutingAction) : Routing :=
  actions.foldl (act o sessionHash) s

structure Inv (s : Routing) : Prop where
  table : s.table.Inv
  view : s.view.Inv o
  /-- an entry is closed only where the binding is -/
  dead : ∀ k e, s.view.entries.get k = some e → (s.view.heap e).closed = true → s.table.Dead k
  known : ∀ p ∈ s.readings, p.change ∈ s.table.changes
  answered : ∀ p ∈ s.readings, ∀ row, p.row = some row →
    (∀ r, row = some r → r.key = p.change.key) ∧
      (SandboxBindingView.opens row = false → s.table.Dead p.change.key)
  below : ∀ p ∈ s.readings, p.entry < s.view.fresh ∧ p.generation ≤ s.view.generation
  readers : ∀ e, (s.view.heap e).readers = (s.readings.map Reading.entry).count e
  /-- a read of this generation has the entry that is found under its key -/
  reading : ∀ p ∈ s.readings, p.generation = s.view.generation →
    s.view.ready = true ∧ s.view.entries.get p.change.key = some p.entry
  pages : ∀ l ∈ s.loads, ∀ rows, l.rows = some rows → ∀ r ∈ rows, r.dispatchClosed = true →
    s.table.Dead r.key
  /-- while a load of this generation is under way, no entry can be dropped -/
  loading : ∀ l ∈ s.loads, l.generation = s.view.generation → s.view.ready = false ∧
    ∀ k e, s.view.entries.get k = some e → (s.view.heap e).route.isSome
  loads : (s.loads.map (·.generation)).Nodup ∧ ∀ l ∈ s.loads, l.generation ≤ s.view.generation

variable {o} {sessionHash} {s : Routing}

theorem Inv.empty : ({} : Routing).Inv o where
  table := ⟨nofun, nofun, nofun, nofun⟩
  view := .empty
  dead _ _ h := by cases h
  known := nofun
  answered := nofun
  below := nofun
  readers _ := rfl
  reading := nofun
  pages := nofun
  loading := nofun
  loads := ⟨List.nodup_nil, nofun⟩

theorem Inv.follow (h : s.Inv o) {t : BindingTable} (ht : s.table.Follows t) :
    ({ s with table := t }).Inv o :=
  { h with
    table := ht.inv
    dead := fun k e hk hc => ht.dead k (h.dead k e hk hc)
    known := fun p hp => ht.changes _ (h.known p hp)
    answered := fun p hp row hrow =>
      ⟨(h.answered p hp row hrow).1, fun hc => ht.dead _ ((h.answered p hp row hrow).2 hc)⟩
    pages := fun l hl rows hrows r hr hc => ht.dead _ (h.pages l hl rows hrows r hr hc) }

theorem Inv.reset (h : s.Inv o) : ({ s with view := s.view.reset }).Inv o :=
  { h with
    view := h.view.reset
    dead := fun _ _ hk => by cases hk
    below := fun p hp => ⟨(h.below p hp).1, Nat.le_succ_of_le (h.below p hp).2⟩
    reading := fun p hp hg => absurd hg (Nat.ne_of_lt (Nat.lt_succ_of_le (h.below p hp).2))
    loading := fun l hl hg => absurd hg (Nat.ne_of_lt (Nat.lt_succ_of_le (h.loads.2 l hl)))
    loads := ⟨h.loads.1, fun l hl => Nat.le_succ_of_le (h.loads.2 l hl)⟩ }

theorem Inv.load (h : s.Inv o) (partitions : List Nat) :
    (s.act o sessionHash (.load partitions)).Inv o := by
  have hreset := h.reset
  have hview : ({ s.view.reset with partitions }).Inv o :=
    { hreset.view with }
  have hlt : ∀ l ∈ s.loads, l.generation < s.view.generation + 1 := fun l hl =>
    Nat.lt_succ_of_le (h.loads.2 l hl)
  refine { hreset with view := hview, pages := ?_, loading := ?_, loads := ⟨?_, ?_⟩ }
  · intro l hl rows hrows
    obtain hl | rfl := mem_snoc.mp hl
    · exact h.pages l hl rows hrows
    · cases hrows
  · intro l _ _
    exact ⟨rfl, fun k e hk => by cases hk⟩
  · unfold act
    dsimp only
    rw [List.map_append]
    refine List.nodup_append.mpr ⟨h.loads.1, List.nodup_singleton _, ?_⟩
    rintro g hg g' hg' rfl
    obtain ⟨l, hl, rfl⟩ := List.mem_map.mp hg
    exact absurd (List.mem_singleton.mp hg') (Nat.ne_of_lt (hlt l hl))
  · intro l hl
    obtain hl | rfl := mem_snoc.mp hl
    · exact Nat.le_of_lt (hlt l hl)
    · exact Nat.le_refl _

theorem Inv.eraseLoad (h : s.Inv o) (i : Nat) :
    ({ s with loads := s.loads.eraseIdx i }).Inv o := by
  have hmem : ∀ l ∈ s.loads.eraseIdx i, l ∈ s.loads := fun l hl => List.mem_of_mem_eraseIdx hl
  exact { h with
    pages := fun l hl => h.pages l (hmem l hl)
    loading := fun l hl => h.loading l (hmem l hl)
    loads := ⟨h.loads.1.sublist ((List.eraseIdx_sublist ..).map _),
      fun l hl => h.loads.2 l (hmem l hl)⟩ }

theorem Inv.setLoad (h : s.Inv o) {i : Nat} {l l' : Load} (hl : s.loads[i]? = some l)
    (hg : l'.generation = l.generation)
    (hpages : ∀ rows, l'.rows = some rows → ∀ r ∈ rows, r.dispatchClosed = true →
      s.table.Dead r.key) :
    ({ s with loads := s.loads.set i l' }).Inv o := by
  have hin : l ∈ s.loads := List.mem_of_getElem? hl
  refine { h with pages := ?_, loading := ?_, loads := ⟨?_, ?_⟩ }
  · intro q hq
    obtain hq | rfl := List.mem_or_eq_of_mem_set hq
    · exact h.pages q hq
    · exact hpages
  · intro q hq
    obtain hq | rfl := List.mem_or_eq_of_mem_set hq
    · exact h.loading q hq
    · rw [hg]
      exact h.loading _ hin
  · have hmap : (s.loads.set i l').map (·.generation) = s.loads.map (·.generation) :=
      Slots.map_set hl hg
    rw [hmap]
    exact h.loads.1
  · intro q hq
    obtain hq | rfl := List.mem_or_eq_of_mem_set hq
    · exact h.loads.2 q hq
    · rw [hg]
      exact h.loads.2 _ hin

theorem Inv.loadView (h : s.Inv o) (i : Nat) : (s.act o sessionHash (.loadView i)).Inv o := by
  unfold act
  dsimp only
  split
  · exact h
  · rename_i l hl
    refine h.setLoad hl rfl fun rows hrows r hr hclosed => ?_
    cases hlrows : l.rows with
    | some old =>
      rw [hlrows] at hrows
      cases hrows
      exact h.pages l (List.mem_of_getElem? hl) old hlrows r hr hclosed
    | none =>
      rw [hlrows] at hrows
      cases hrows
      obtain ⟨row, hrow, rfl⟩ := BindingTable.mem_loadView hr
      exact h.table.dead_of_closed hrow hclosed

theorem Inv.page (h : s.Inv o) {l : Load} (hl : l ∈ s.loads)
    (hg : l.generation = s.view.generation) {rows : List SandboxBindingRecord}
    (hrows : l.rows = some rows) {v' : SandboxBindingView} {ok : Bool}
    (hv : s.view.loadRows o rows = (v', ok)) {loads : List Load} {ready : Bool}
    (hpages : ∀ l ∈ loads, ∀ rows, l.rows = some rows → ∀ r ∈ rows, r.dispatchClosed = true →
      s.table.Dead r.key)
    (hloading : ∀ l ∈ loads, l.generation = s.view.generation → ready = false ∧ ok = true)
    (hloads : (loads.map (·.generation)).Nodup ∧ ∀ l ∈ loads, l.generation ≤ s.view.generation) :
    ({ s with view := { v' with ready }, loads }).Inv o := by
  obtain ⟨hready, hrouted⟩ := h.loading l hl hg
  obtain ⟨hv', hfollows, hkeep, hreaders, hall, hclosed⟩ := h.view.loadRows hrouted hv
  refine ⟨h.table, { hv' with }, fun k e hk hc => ?_, h.known, h.answered, fun p hp => ?_,
    fun e => (hreaders e).trans (h.readers e), fun p hp hpg => ?_, hpages, fun q hq hqg => ?_,
    hloads.1, fun q hq => ?_⟩
  · obtain ⟨hk, hc⟩ | ⟨row, hrow, rfl, hc⟩ := hclosed k e hk hc
    · exact h.dead k e hk hc
    · exact h.pages l hl rows hrows row hrow hc
  · obtain ⟨hlt, hle⟩ := h.below p hp
    exact ⟨Nat.lt_of_lt_of_le hlt hfollows.fresh, hle.trans_eq hfollows.generation.symm⟩
  · have hnot := (h.reading p hp (hpg.trans hfollows.generation)).1
    rw [hready] at hnot
    cases hnot
  · obtain ⟨hfalse, hok⟩ := hloading q hq (hqg.trans hfollows.generation)
    exact ⟨hfalse, hall hok⟩
  · exact (hloads.2 q hq).trans_eq hfollows.generation.symm

theorem Inv.loaded (h : s.Inv o) {i : Nat} {l : Load} (hl : s.loads[i]? = some l)
    {rows : List SandboxBindingRecord} (hrows : l.rows = some rows) (current : Bool) :
    (s.loaded o i current l rows).Inv o := by
  have hin : l ∈ s.loads := List.mem_of_getElem? hl
  have herase := h.eraseLoad i
  have hother : ∀ q ∈ s.loads.eraseIdx i, q.generation ≠ l.generation := fun q hq =>
    Slots.ne_of_mem_eraseIdx (f := Load.generation) hl h.loads.1 hq
  unfold Routing.loaded
  split
  · exact herase
  · rename_i hcurrent
    have hg : l.generation = s.view.generation := by
      by_contra hne
      exact hcurrent (.inr hne)
    have hnone : ∀ ready ok, ∀ q ∈ s.loads.eraseIdx i, q.generation = s.view.generation →
        ready = false ∧ ok = true := fun ready ok q hq hqg =>
      absurd (hqg.trans hg.symm) (hother q hq)
    split
    · rename_i v' hv
      exact h.page hin hg hrows hv herase.pages (hnone _ _) herase.loads
    · rename_i v' hv
      split
      · exact h.page hin hg hrows hv herase.pages (hnone _ _) herase.loads
      · let next : Load := { l with
          after := rows.getLast?.map fun last => (last.runId, last.bindingId), rows := none }
        have hset : ({ s with loads := s.loads.set i next }).Inv o := h.setLoad hl rfl nofun
        have hready : v'.ready = false := by
          rw [(h.view.loadRows (h.loading l hin hg).2 hv).2.1.ready]
          exact (h.loading l hin hg).1
        exact h.page hin hg hrows hv hset.pages
          (fun _ _ _ => ⟨hready, rfl⟩) hset.loads

theorem Inv.opened (h : s.Inv o) (hready : s.view.ready = true) {v : SandboxBindingView}
    {k : RouteKey} {e : Nat} (hv : v.Inv o) (hopened : s.view.Opened v k e) :
    ({ s with view := v }).Inv o := by
  refine ⟨h.table, hv, fun j e' hj hc => ?_, h.known, h.answered, fun p hp => ?_, fun e' => ?_,
    fun p hp hpg => ?_, h.pages, fun l hl hg => ?_, h.loads.1, fun l hl => ?_⟩
  · dsimp only at hc
    rw [hopened.heap] at hc
    by_cases hjk : j = k
    · subst hjk
      cases hget : s.view.entries.get j with
      | none =>
        have hje : v.entries.get j = some e' := hj
        rw [hopened.found] at hje
        cases hje
        rw [hopened.made hget, h.view.unused _ (Nat.le_refl _)] at hc
        cases hc
      | some old =>
        obtain hkept | ⟨hnone, _⟩ := hopened.dropped j old hget
        · have hje : v.entries.get j = some e' := hj
          rw [hkept] at hje
          cases hje
          exact h.dead j _ hget hc
        · rw [hopened.found] at hnone
          cases hnone
    · exact h.dead j e' (hopened.kept j e' hjk hj) hc
  · obtain ⟨hlt, hle⟩ := h.below p hp
    exact ⟨Nat.lt_of_lt_of_le hlt hopened.follows.fresh, hle.trans_eq hopened.follows.generation.symm⟩
  · dsimp only
    rw [hopened.heap]
    exact h.readers e'
  · obtain ⟨_, hget⟩ := h.reading p hp (hpg.trans hopened.follows.generation)
    refine ⟨hopened.follows.ready.trans hready, ?_⟩
    obtain hkept | ⟨_, _, hreaders⟩ := hopened.dropped _ _ hget
    · exact hkept
    · rw [h.readers, List.count_eq_zero] at hreaders
      exact absurd (List.mem_map_of_mem hp) hreaders
  · have hnot := (h.loading l hl (hg.trans hopened.follows.generation)).1
    rw [hready] at hnot
    cases hnot
  · exact (h.loads.2 l hl).trans_eq hopened.follows.generation.symm

theorem Inv.change (h : s.Inv o) (c : SandboxBindingChange) (current closureOnly : Bool) :
    (s.change o c current closureOnly).Inv o := by
  unfold Routing.change
  split
  · rename_i hc
    cases hbegin : s.view.beginChange o c current closureOnly with
    | error _ => exact h
    | ok result =>
      obtain ⟨v, entry⟩ := result
      obtain ⟨hready, w, e, hentry, hstep⟩ := SandboxBindingView.beginChange_ok hbegin
      obtain ⟨hw, hopened⟩ := h.view.entry hentry
      have hinv := h.opened hready hw hopened
      obtain ⟨rfl, rfl⟩ | ⟨rfl, rfl⟩ := hstep
      · exact hinv
      · have hlt : e < w.fresh := hw.below c.key e hopened.found
        refine ⟨hinv.table, hw.setReaders hlt _, fun k e' hk hcl => ?_, ?_, ?_, ?_, fun e' => ?_,
          ?_, hinv.pages, fun l hl hg => ?_, hinv.loads⟩
        · dsimp only at hcl
          rw [SandboxBindingView.setReaders_heap] at hcl
          exact hinv.dead k e' hk hcl
        · intro p hp
          obtain hp | rfl := mem_snoc.mp hp
          · exact hinv.known p hp
          · exact hc
        · intro p hp row hrow
          obtain hp | rfl := mem_snoc.mp hp
          · exact hinv.answered p hp row hrow
          · cases hrow
        · intro p hp
          obtain hp | rfl := mem_snoc.mp hp
          · exact hinv.below p hp
          · exact ⟨hlt, Nat.le_refl _⟩
        · dsimp only
          rw [SandboxBindingView.setReaders_heap, List.map_append, List.count_append,
            List.map_singleton, ← hinv.readers e']
          dsimp only
          by_cases hee : e' = e
          · subst hee
            rw [if_pos rfl, List.count_singleton_self]
          · rw [if_neg hee, List.count_singleton, if_neg (by simpa using Ne.symm hee)]
            rfl
        · intro p hp hpg
          obtain hp | rfl := mem_snoc.mp hp
          · exact hinv.reading p hp hpg
          · exact ⟨hopened.follows.ready.trans hready, hopened.found⟩
        · have hnot := (hinv.loading l hl hg).1
          have hyes : w.ready = true := hopened.follows.ready.trans hready
          rw [hyes] at hnot
          cases hnot
  · exact h

theorem Inv.readChange (h : s.Inv o) (i : Nat) : (s.act o sessionHash (.readChange i)).Inv o := by
  unfold act
  dsimp only
  split
  · exact h
  · rename_i p hp
    have hin : p ∈ s.readings := List.mem_of_getElem? hp
    have hmem : ∀ q ∈ s.readings.set i { p with row := some (p.row.getD (s.table.readChange p.change)) },
        ∃ q' ∈ s.readings, q.generation = q'.generation ∧ q.entry = q'.entry ∧
          q.change = q'.change := by
      intro q hq
      obtain hq | rfl := List.mem_or_eq_of_mem_set hq
      · exact ⟨q, hq, rfl, rfl, rfl⟩
      · exact ⟨p, hin, rfl, rfl, rfl⟩
    refine { h with known := ?_, answered := ?_, below := ?_, readers := ?_, reading := ?_ }
    · intro q hq
      obtain ⟨q', hq', _, _, hchange⟩ := hmem q hq
      rw [hchange]
      exact h.known q' hq'
    · intro q hq row hrow
      obtain hq | rfl := List.mem_or_eq_of_mem_set hq
      · exact h.answered q hq row hrow
      · cases hrow
        cases hprow : p.row with
        | some old => exact h.answered p hin old hprow
        | none =>
          dsimp only [Option.getD_none]
          refine ⟨fun r hr => ?_, fun hclosed => ?_⟩
          · obtain ⟨_, _, _, hkey⟩ := BindingTable.mem_of_readChange hr
            exact hkey
          · cases hread : s.table.readChange p.change with
            | none => exact h.table.dead_of_absent (h.known p hin) hread
            | some r =>
              obtain ⟨row, hrow, rfl, hkey⟩ := BindingTable.mem_of_readChange hread
              rw [hread] at hclosed
              rw [← hkey]
              exact h.table.dead_of_closed hrow (by simpa [SandboxBindingView.opens] using hclosed)
    · intro q hq
      obtain ⟨q', hq', hg, hentry, _⟩ := hmem q hq
      rw [hg, hentry]
      exact h.below q' hq'
    · intro e
      have hmap : (s.readings.set i { p with
          row := some (p.row.getD (s.table.readChange p.change)) }).map Reading.entry
          = s.readings.map Reading.entry := Slots.map_set hp rfl
      dsimp only
      rw [hmap]
      exact h.readers e
    · intro q hq
      obtain ⟨q', hq', hg, hentry, hchange⟩ := hmem q hq
      rw [hg, hentry, hchange]
      exact h.reading q' hq'

theorem Inv.endReading (h : s.Inv o) {i : Nat} {p : Reading} (hp : s.readings[i]? = some p) :
    ({ s with view := s.view.endReading p.entry, readings := s.readings.eraseIdx i }).Inv o := by
  have hin : p ∈ s.readings := List.mem_of_getElem? hp
  have hmem : ∀ q ∈ s.readings.eraseIdx i, q ∈ s.readings := fun q hq => List.mem_of_mem_eraseIdx hq
  have hset : s.view.endReading p.entry
      = s.view.setReaders p.entry ((s.view.heap p.entry).readers - 1) := rfl
  rw [hset]
  refine ⟨h.table, h.view.setReaders (h.below p hin).1 _, fun k e hk hc => ?_,
    fun q hq => h.known q (hmem q hq), fun q hq => h.answered q (hmem q hq),
    fun q hq => h.below q (hmem q hq), fun e => ?_, fun q hq => h.reading q (hmem q hq), h.pages,
    fun l hl hg => ?_, h.loads⟩
  · dsimp only at hc
    rw [SandboxBindingView.setReaders_heap] at hc
    exact h.dead k e hk hc
  · have hcount := Slots.count_eraseIdx hp Reading.entry e
    rw [← h.readers e] at hcount
    dsimp only
    rw [SandboxBindingView.setReaders_heap]
    dsimp only
    by_cases hee : e = p.entry
    · rw [if_pos hee.symm] at hcount
      rw [if_pos hee, ← hee]
      omega
    · rw [if_neg (Ne.symm hee)] at hcount
      rw [if_neg hee]
      omega
  · obtain ⟨hready, hrouted⟩ := h.loading l hl hg
    refine ⟨hready, fun k e hk => ?_⟩
    dsimp only
    rw [SandboxBindingView.setReaders_heap]
    exact hrouted k e hk

theorem Inv.takeChange (h : s.Inv o) {p : Reading} (hp : p ∈ s.readings)
    {row : Option SandboxBindingRecord} (hrow : p.row = some row) {current : Bool}
    {v' : SandboxBindingView}
    (hok : s.view.takeChange o p.generation p.entry p.change p.closureOnly current row = .ok v') :
    v' = s.view ∨ p.generation = s.view.generation ∧ v'.Inv o ∧ s.view.Wrote v' p.entry ∧
      (v' = s.view ∨ ∃ version, v'.heap p.entry = SandboxBindingView.taken o (s.view.heap p.entry) row
          version ∧ ((s.view.heap p.entry).closed = true → SandboxBindingView.opens row = false)) := by
  unfold SandboxBindingView.takeChange at hok
  split at hok
  · cases hok
    exact .inl rfl
  · rename_i hcurrent
    have hg : p.generation = s.view.generation := by
      by_contra hne
      exact hcurrent (.inr hne)
    split at hok
    · cases hok
    · split at hok
      · obtain ⟨_, hget⟩ := h.reading p hp hg
        obtain ⟨hv', hwrote, htaken⟩ := h.view.apply hget (h.answered p hp row hrow).1 hok
        refine .inr ⟨hg, hv', hwrote, ?_⟩
        obtain ⟨heq, _⟩ | htaken := htaken
        · exact .inl heq
        · exact .inr ⟨_, htaken⟩
      · cases hok
        exact .inl rfl

theorem Inv.wrote (h : s.Inv o) {p : Reading} (hp : p ∈ s.readings)
    {row : Option SandboxBindingRecord} (hrow : p.row = some row) {current : Bool}
    {v' : SandboxBindingView}
    (hok : s.view.takeChange o p.generation p.entry p.change p.closureOnly current row = .ok v') :
    ({ s with view := v' }).Inv o := by
  obtain rfl | ⟨hg, hv', hwrote, htaken⟩ := h.takeChange hp hrow hok
  · exact h
  · obtain ⟨hready, hget⟩ := h.reading p hp hg
    refine ⟨h.table, hv', fun k e hk hc => ?_, h.known, h.answered, fun q hq => ?_, fun e => ?_,
      fun q hq hqg => ?_, h.pages, fun l hl hlg => ?_, h.loads.1, fun l hl => ?_⟩
    · have hk' : s.view.entries.get k = some e := hwrote.entries ▸ hk
      dsimp only at hc
      by_cases he : e = p.entry
      · subst he
        have hkey : k = p.change.key := h.view.inj k _ _ hk' hget
        obtain rfl | ⟨version, htaken, hshut⟩ := htaken
        · exact h.dead k _ hk' hc
        · rw [htaken] at hc
          rw [hkey]
          refine (h.answered p hp row hrow).2 ?_
          obtain hold | hnew := (Bool.or_eq_true _ _).mp hc
          · exact hshut hold
          · exact (Bool.not_eq_true' _).mp hnew
      · rw [hwrote.other e he] at hc
        exact h.dead k e hk' hc
    · obtain ⟨hlt, hle⟩ := h.below q hq
      exact ⟨Nat.lt_of_lt_of_le hlt hwrote.follows.fresh, hle.trans_eq hwrote.follows.generation.symm⟩
    · rw [← h.readers e]
      by_cases he : e = p.entry
      · rw [he]
        exact hwrote.readers
      · exact congrArg Entry.readers (hwrote.other e he)
    · obtain ⟨_, hq⟩ := h.reading q hq (hqg.trans hwrote.follows.generation)
      refine ⟨hwrote.follows.ready.trans hready, ?_⟩
      dsimp only
      rw [hwrote.entries]
      exact hq
    · have hnot := (h.loading l hl (hlg.trans hwrote.follows.generation)).1
      rw [hready] at hnot
      cases hnot
    · exact (h.loads.2 l hl).trans_eq hwrote.follows.generation.symm

theorem Inv.read (h : s.Inv o) {i : Nat} {p : Reading} (hp : s.readings[i]? = some p)
    {row : Option SandboxBindingRecord} (hrow : p.row = some row) (current : Bool) :
    (s.read o i current p row).Inv o := by
  unfold Routing.read
  dsimp only
  split
  · exact h.endReading hp
  · rename_i v' hok
    exact (h.wrote (List.mem_of_getElem? hp) hrow hok).endReading hp

theorem Inv.act (h : s.Inv o) (a : RoutingAction) : (s.act o sessionHash a).Inv o := by
  cases a with
  | register row => exact h.follow (h.table.register row)
  | update bindingId dispatchClosed cancelOutstanding instanceId =>
    exact h.follow (h.table.update ..)
  | delete bindingId => exact h.follow (h.table.delete bindingId)
  | reset => exact h.reset
  | load partitions => exact h.load partitions
  | loadView i => exact h.loadView i
  | loadFailed i => exact h.eraseLoad i
  | loaded i current =>
    unfold Routing.act
    dsimp only
    split
    · exact h
    · rename_i l hl
      split
      · exact h
      · rename_i rows hrows
        exact h.loaded hl hrows current
  | change c current closureOnly => exact h.change c current closureOnly
  | readChange i => exact h.readChange i
  | readFailed i =>
    unfold Routing.act
    dsimp only
    split
    · exact h
    · rename_i p hp
      exact h.endReading hp
  | read i current =>
    unfold Routing.act
    dsimp only
    split
    · exact h
    · rename_i p hp
      split
      · exact h
      · rename_i row hrow
        exact h.read hp hrow current

theorem Inv.run (h : s.Inv o) (actions : List RoutingAction) :
    (s.run o sessionHash actions).Inv o := by
  unfold Routing.run
  induction actions generalizing s with
  | nil => exact h
  | cons a actions ih => exact ih (h.act a)

/-! ## A closed binding -/

/-- The view cannot return the binding open any more: its entry is closed, or it was dropped, and no
read that began before it was dropped can bring an open row. -/
structure Sealed (s : Routing) (k : RouteKey) : Prop where
  dead : s.table.Dead k
  shut : ∀ e, s.view.entries.get k = some e → SandboxBindingView.opens (s.view.heap e).route = false
  memory : (∃ e, s.view.entries.get k = some e ∧ (s.view.heap e).closed = true) ∨
    s.view.ready = true ∧ ∀ p ∈ s.readings, p.generation = s.view.generation → p.change.key = k →
      ∀ row, p.row = some row → SandboxBindingView.opens row = false

variable {k : RouteKey}

theorem Inv.sealed (h : s.Inv o) {e : Nat} (he : s.view.entries.get k = some e)
    (hc : (s.view.heap e).closed = true) : s.Sealed k :=
  ⟨h.dead k e he hc, fun e' he' => by
    rw [he] at he'
    cases he'
    exact h.view.shut e hc, .inl ⟨e, he, hc⟩⟩

theorem Sealed.setReaders (hk : s.Sealed k) (e n : Nat) :
    ({ s with view := s.view.setReaders e n }).Sealed k := by
  refine ⟨hk.dead, fun e' he' => ?_, ?_⟩
  · dsimp only
    rw [SandboxBindingView.setReaders_heap]
    exact hk.shut e' he'
  · obtain ⟨e', he', hc⟩ | hready := hk.memory
    · refine .inl ⟨e', he', ?_⟩
      dsimp only
      rw [SandboxBindingView.setReaders_heap]
      exact hc
    · exact .inr hready

theorem Sealed.readings (hk : s.Sealed k) {readings : List Reading}
    (h : ∀ p ∈ readings, p ∈ s.readings ∨ ∀ row, p.row = some row → p.change.key = k →
      SandboxBindingView.opens row = false) : ({ s with readings }).Sealed k := by
  refine ⟨hk.dead, hk.shut, ?_⟩
  obtain hclosed | ⟨hready, hrows⟩ := hk.memory
  · exact .inl hclosed
  · refine .inr ⟨hready, fun p hp hg hkey row hrow => ?_⟩
    obtain hold | hnew := h p hp
    · exact hrows p hold hg hkey row hrow
    · exact hnew row hrow hkey

theorem Sealed.opened (hk : s.Sealed k) (h : s.Inv o) (hready : s.view.ready = true)
    {v : SandboxBindingView} {j : RouteKey} {e : Nat} (hopened : s.view.Opened v j e) :
    ({ s with view := v }).Sealed k := by
  refine ⟨hk.dead, fun e' he' => ?_, ?_⟩
  · dsimp only at he' ⊢
    rw [hopened.heap]
    by_cases hkj : k = j
    · subst hkj
      rw [hopened.found] at he'
      cases he'
      cases hget : s.view.entries.get k with
      | none =>
        rw [hopened.made hget, h.view.unused _ (Nat.le_refl _)]
        rfl
      | some old =>
        obtain hkept | ⟨hnone, _⟩ := hopened.dropped k old hget
        · rw [hopened.found] at hkept
          cases hkept
          exact hk.shut _ hget
        · rw [hopened.found] at hnone
          cases hnone
    · exact hk.shut e' (hopened.kept k e' hkj he')
  · have hready' : v.ready = true := hopened.follows.ready.trans hready
    obtain ⟨e', he', hc⟩ | ⟨_, hrows⟩ := hk.memory
    · obtain hkept | ⟨_, _, hreaders⟩ := hopened.dropped k e' he'
      · refine .inl ⟨e', hkept, ?_⟩
        dsimp only
        rw [hopened.heap]
        exact hc
      · refine .inr ⟨hready', fun p hp hg hkey => ?_⟩
        obtain ⟨_, hget⟩ := h.reading p hp (hg.trans hopened.follows.generation)
        rw [hkey, he'] at hget
        cases hget
        rw [h.readers, List.count_eq_zero] at hreaders
        exact absurd (List.mem_map_of_mem hp) hreaders
    · exact .inr ⟨hready', fun p hp hg =>
        hrows p hp (hg.trans hopened.follows.generation)⟩

theorem Sealed.wrote (hk : s.Sealed k) (h : s.Inv o) {p : Reading} (hp : p ∈ s.readings)
    {row : Option SandboxBindingRecord} (hrow : p.row = some row) {current : Bool}
    {v' : SandboxBindingView}
    (hok : s.view.takeChange o p.generation p.entry p.change p.closureOnly current row = .ok v') :
    ({ s with view := v' }).Sealed k := by
  obtain rfl | ⟨hg, _, hwrote, htaken⟩ := h.takeChange hp hrow hok
  · exact hk
  · obtain ⟨hready, hget⟩ := h.reading p hp hg
    refine ⟨hk.dead, fun e he => ?_, ?_⟩
    · have he' : s.view.entries.get k = some e := hwrote.entries ▸ he
      dsimp only
      by_cases hee : e = p.entry
      · subst hee
        have hkey : p.change.key = k := h.view.inj _ _ _ hget he'
        obtain rfl | ⟨version, htaken, hshut⟩ := htaken
        · exact hk.shut _ he'
        · rw [htaken]
          show SandboxBindingView.opens row = false
          obtain ⟨e', hmem, hc⟩ | ⟨_, hrows⟩ := hk.memory
          · rw [he'] at hmem
            cases hmem
            exact hshut hc
          · exact hrows p hp hg hkey row hrow
      · rw [hwrote.other e hee]
        exact hk.shut e he'
    · obtain ⟨e, he, hc⟩ | ⟨_, hrows⟩ := hk.memory
      · refine .inl ⟨e, ?_, hwrote.follows.closed e hc⟩
        dsimp only
        rw [hwrote.entries]
        exact he
      · exact .inr ⟨hwrote.follows.ready.trans hready, fun q hq hqg =>
          hrows q hq (hqg.trans hwrote.follows.generation)⟩

theorem Sealed.endReading (hk : s.Sealed k) (i e : Nat) :
    ({ s with view := s.view.endReading e, readings := s.readings.eraseIdx i }).Sealed k :=
  (hk.setReaders e _).readings fun _ hp => .inl (List.mem_of_mem_eraseIdx hp)

theorem Sealed.follow (hk : s.Sealed k) {t : BindingTable} (ht : s.table.Follows t) :
    ({ s with table := t }).Sealed k :=
  { hk with dead := ht.dead k hk.dead }

theorem Sealed.change (hk : s.Sealed k) (h : s.Inv o) (c : SandboxBindingChange)
    (current closureOnly : Bool) : (s.change o c current closureOnly).Sealed k := by
  unfold Routing.change
  split
  · cases hbegin : s.view.beginChange o c current closureOnly with
    | error _ => exact hk
    | ok result =>
      obtain ⟨v, entry⟩ := result
      obtain ⟨hready, w, e, hentry, hstep⟩ := SandboxBindingView.beginChange_ok hbegin
      have hopened := hk.opened h hready (h.view.entry hentry).2
      obtain ⟨rfl, rfl⟩ | ⟨rfl, rfl⟩ := hstep
      · exact hopened
      · refine (hopened.setReaders e ((w.heap e).readers + 1)).readings fun p hp => ?_
        obtain hp | rfl := mem_snoc.mp hp
        · exact .inl hp
        · exact .inr nofun
  · exact hk

theorem Sealed.loaded (hk : s.Sealed k) (h : s.Inv o) {i : Nat} {l : Load}
    (hl : s.loads[i]? = some l) {rows : List SandboxBindingRecord} (current : Bool) :
    (s.loaded o i current l rows).Sealed k := by
  have hin : l ∈ s.loads := List.mem_of_getElem? hl
  unfold Routing.loaded
  split
  · exact { hk with }
  · rename_i hcurrent
    have hg : l.generation = s.view.generation := by
      by_contra hne
      exact hcurrent (.inr hne)
    obtain ⟨hready, hrouted⟩ := h.loading l hin hg
    -- the closed entry stays while the load is under way
    have hpage : ∀ v' ok, s.view.loadRows o rows = (v', ok) → ∀ ready loads,
        ({ s with view := { v' with ready }, loads }).Sealed k := by
      intro v' ok hv ready loads
      obtain ⟨hv', hfollows, hkeep, _⟩ := h.view.loadRows hrouted hv
      obtain ⟨e, he, hc⟩ | ⟨hyes, _⟩ := hk.memory
      · have hc' := hfollows.closed e hc
        refine ⟨hk.dead, fun e' he' => ?_, .inl ⟨e, hkeep k e he, hc'⟩⟩
        have he'' : v'.entries.get k = some e' := he'
        rw [hkeep k e he] at he''
        cases he''
        exact hv'.shut e hc'
      · rw [hready] at hyes
        cases hyes
    split
    · rename_i v' hv
      exact hpage v' false hv v'.ready _
    · rename_i v' hv
      split
      · exact hpage v' true hv true _
      · exact hpage v' true hv v'.ready _

theorem Sealed.act (hk : s.Sealed k) (h : s.Inv o) (a : RoutingAction)
    (hg : (s.act o sessionHash a).view.generation = s.view.generation) :
    (s.act o sessionHash a).Sealed k := by
  cases a with
  | register row => exact hk.follow (h.table.register row)
  | update bindingId dispatchClosed cancelOutstanding instanceId =>
    exact hk.follow (h.table.update ..)
  | delete bindingId => exact hk.follow (h.table.delete bindingId)
  | reset => exact absurd hg (Nat.succ_ne_self _)
  | load partitions => exact absurd hg (Nat.succ_ne_self _)
  | loadView i =>
    unfold Routing.act
    dsimp only
    split
    · exact hk
    · exact { hk with }
  | loadFailed i => exact { hk with }
  | loaded i current =>
    unfold Routing.act
    dsimp only
    split
    · exact hk
    · rename_i l hl
      split
      · exact hk
      · exact hk.loaded h hl current
  | change c current closureOnly => exact hk.change h c current closureOnly
  | readChange i =>
    unfold Routing.act
    dsimp only
    split
    · exact hk
    · rename_i p hp
      obtain hclosed | ⟨hready, hrows⟩ := hk.memory
      · exact ⟨hk.dead, hk.shut, .inl hclosed⟩
      · refine ⟨hk.dead, hk.shut, .inr ⟨hready, fun q hq hqg hkey row hrow => ?_⟩⟩
        obtain hq | rfl := List.mem_or_eq_of_mem_set hq
        · exact hrows q hq hqg hkey row hrow
        · cases hprow : p.row with
          | some old =>
            cases hrow
            rw [hprow]
            exact hrows p (List.mem_of_getElem? hp) hqg hkey old hprow
          | none =>
            cases hrow
            rw [hprow]
            have hkey' : p.change.key = k := hkey
            have hclosed := (hkey' ▸ hk.dead : s.table.Dead p.change.key).readChange
            dsimp only [Option.getD_none]
            cases hread : s.table.readChange p.change with
            | none => rfl
            | some r => simp [SandboxBindingView.opens, hclosed r hread]
  | readFailed i =>
    unfold Routing.act
    dsimp only
    split
    · exact hk
    · exact hk.endReading i _
  | read i current =>
    unfold Routing.act
    dsimp only
    split
    · exact hk
    · rename_i p hp
      split
      · exact hk
      · rename_i row hrow
        unfold Routing.read
        dsimp only
        split
        · exact hk.endReading i _
        · rename_i v' hok
          exact (hk.wrote h (List.mem_of_getElem? hp) hrow hok).endReading i _

/-- Generations and versions only rise. -/
structure Rises (s s' : Routing) : Prop where
  generation : s.view.generation ≤ s'.view.generation
  version : ∀ e, (s.view.heap e).version ≤ (s'.view.heap e).version

theorem Rises.refl (s : Routing) : s.Rises s := ⟨Nat.le_refl _, fun _ => le_refl _⟩

theorem Rises.trans {s' s'' : Routing} (h : s.Rises s') (h' : s'.Rises s'') : s.Rises s'' :=
  ⟨Nat.le_trans h.generation h'.generation, fun e => le_trans (h.version e) (h'.version e)⟩

theorem Rises.of_follows {s' : Routing} (h : s.view.Follows s'.view) : s.Rises s' :=
  ⟨Nat.le_of_eq h.generation.symm, h.version⟩

theorem Inv.rises (h : s.Inv o) (a : RoutingAction) : s.Rises (s.act o sessionHash a) := by
  cases a with
  | register row => exact ⟨Nat.le_refl _, fun _ => le_refl _⟩
  | update bindingId dispatchClosed cancelOutstanding instanceId =>
    exact ⟨Nat.le_refl _, fun _ => le_refl _⟩
  | delete bindingId => exact ⟨Nat.le_refl _, fun _ => le_refl _⟩
  | reset => exact ⟨Nat.le_succ _, fun _ => le_refl _⟩
  | load partitions => exact ⟨Nat.le_succ _, fun _ => le_refl _⟩
  | loadView i =>
    unfold Routing.act
    dsimp only
    split <;> exact ⟨Nat.le_refl _, fun _ => le_refl _⟩
  | loadFailed i => exact ⟨Nat.le_refl _, fun _ => le_refl _⟩
  | loaded i current =>
    unfold Routing.act
    dsimp only
    split
    · exact .refl _
    · rename_i l hl
      split
      · exact .refl _
      · rename_i rows hrows
        unfold Routing.loaded
        split
        · exact ⟨Nat.le_refl _, fun _ => le_refl _⟩
        · rename_i hcurrent
          have hg : l.generation = s.view.generation := by
            by_contra hne
            exact hcurrent (.inr hne)
          have hrouted := (h.loading l (List.mem_of_getElem? hl) hg).2
          split
          · rename_i v' hv
            exact .of_follows (h.view.loadRows hrouted hv).2.1
          · rename_i v' hv
            have hfollows := (h.view.loadRows hrouted hv).2.1
            split
            · exact ⟨Nat.le_of_eq hfollows.generation.symm, hfollows.version⟩
            · exact .of_follows hfollows
  | change c current closureOnly =>
    unfold Routing.act Routing.change
    dsimp only
    split
    · cases hbegin : s.view.beginChange o c current closureOnly with
      | error _ => exact .refl _
      | ok result =>
        obtain ⟨v, entry⟩ := result
        obtain ⟨-, w, e, hentry, hstep⟩ := SandboxBindingView.beginChange_ok hbegin
        have hfollows := (h.view.entry hentry).2.follows
        obtain ⟨rfl, rfl⟩ | ⟨rfl, rfl⟩ := hstep
        · exact .of_follows hfollows
        · exact .of_follows (hfollows.trans (SandboxBindingView.setReaders_follows w e _))
    · exact .refl _
  | readChange i =>
    unfold Routing.act
    dsimp only
    split <;> exact ⟨Nat.le_refl _, fun _ => le_refl _⟩
  | readFailed i =>
    unfold Routing.act
    dsimp only
    split
    · exact .refl _
    · exact .of_follows (SandboxBindingView.setReaders_follows ..)
  | read i current =>
    unfold Routing.act
    dsimp only
    split
    · exact .refl _
    · rename_i p hp
      split
      · exact .refl _
      · rename_i row hrow
        unfold Routing.read
        dsimp only
        split
        · exact .of_follows (SandboxBindingView.setReaders_follows ..)
        · rename_i v' hok
          refine .of_follows (.trans ?_ (SandboxBindingView.setReaders_follows v' p.entry _))
          obtain rfl | ⟨_, _, hwrote, _⟩ := h.takeChange (List.mem_of_getElem? hp) hrow hok
          · exact .refl _
          · exact hwrote.follows

theorem Inv.run_rises (h : s.Inv o) (actions : List RoutingAction) :
    s.Rises (s.run o sessionHash actions) := by
  induction actions generalizing s with
  | nil => exact .refl _
  | cons a actions ih => exact (h.rises a).trans (ih (h.act a))

theorem Sealed.run (hk : s.Sealed k) (h : s.Inv o) (actions : List RoutingAction)
    (hg : (s.run o sessionHash actions).view.generation = s.view.generation) :
    (s.run o sessionHash actions).Sealed k := by
  induction actions generalizing s with
  | nil => exact hk
  | cons a actions ih =>
    have hfirst : s.Rises (s.act o sessionHash a) := h.rises a
    have hrest : (s.act o sessionHash a).Rises ((s.act o sessionHash a).run o sessionHash actions) :=
      (h.act a).run_rises actions
    have hlast : ((s.act o sessionHash a).run o sessionHash actions).view.generation
        = s.view.generation := hg
    have hstay : (s.act o sessionHash a).view.generation = s.view.generation :=
      Nat.le_antisymm (hlast ▸ hrest.generation) hfirst.generation
    exact ih (hk.act h a hstay) (h.act a) (hlast.trans hstay.symm)

theorem Sealed.get (hk : s.Sealed k) {writerId : Nat} {row : SandboxBindingRecord}
    (hget : s.view.get (some k.tenantId) k.runId writerId k.bindingId = .ok (some row)) :
    row.dispatchClosed = true := by
  unfold SandboxBindingView.get at hget
  split at hget
  · cases hget
  · have hroute := (Option.filter_eq_some_iff.mp (Except.ok.inj hget)).1
    obtain ⟨e, he, hr⟩ := Option.bind_eq_some_iff.mp hroute
    have hshut := hk.shut e he
    rw [hr] at hshut
    simpa [SandboxBindingView.opens] using hshut

theorem Sealed.binding (hk : s.Sealed k) (h : s.Inv o) {row : SandboxBindingRecord}
    (hget : s.view.binding k.bindingId = .ok (some row)) (hkey : row.key = k) :
    row.dispatchClosed = true := by
  unfold SandboxBindingView.binding at hget
  split at hget
  · cases hget
  · obtain ⟨e, he, hr⟩ := Option.bind_eq_some_iff.mp (Except.ok.inj hget)
    obtain ⟨r, hroute, _, hentry⟩ := h.view.bindings _ _ he
    rw [hr] at hroute
    cases hroute
    rw [hkey] at hentry
    have hshut := hk.shut e hentry
    rw [hr] at hshut
    simpa [SandboxBindingView.opens] using hshut

end Routing

/-- Once the view has recorded that a binding is closed, it does not return it open again in that
generation, whatever is loaded, read, evicted or reset; no cell's version falls, and the bytes are
those of the entries, within their bound. -/
theorem closed_never_reopens (o : ViewOptions) (sessionHash : Nat → Nat)
    (before after : List RoutingAction) (k : RouteKey) :
    let s := ({} : Routing).run o sessionHash before
    let s' := s.run o sessionHash after
    ((∃ e, s.view.entries.get k = some e ∧ (s.view.heap e).closed = true) →
      s'.view.generation = s.view.generation →
      (∀ writerId row, s'.view.get (some k.tenantId) k.runId writerId k.bindingId = .ok (some row) →
        row.dispatchClosed = true) ∧
      ∀ row, s'.view.binding k.bindingId = .ok (some row) → row.key = k →
        row.dispatchClosed = true) ∧
    (∀ e, (s.view.heap e).version ≤ (s'.view.heap e).version) ∧
    s'.view.bytes = s'.view.entries.sum (fun e => (s'.view.heap e).bytes) ∧
    s'.view.bytes ≤ o.maximumBytes := by
  intro s s'
  have h : s.Inv o := Routing.Inv.empty.run before
  have h' : s'.Inv o := h.run after
  refine ⟨fun hclosed hg => ?_, (h.run_rises after).version, h'.view.total, h'.view.bound⟩
  obtain ⟨e, he, hc⟩ := hclosed
  have hk : s'.Sealed k := (h.sealed he hc).run h after hg
  exact ⟨fun _ _ hget => hk.get hget, fun _ hget hkey => hk.binding h' hget hkey⟩

/-- A binding that was deleted is evicted for another; its first announcement is delivered again. -/
theorem closed_never_reopens_evicted :
    let o : ViewOptions :=
      { partitionFor := fun _ => 0, partitionCount := 1, maximumEntries := 1
        byteLength := fun _ => 10 }
    let row : Nat → SandboxBindingRecord := fun bindingId =>
      { tenantId := 1, runId := 2, bindingId, writerId := 3, piSessionId := 4, instanceId := 5
        dispatchClosed := false, revision := 0 }
    let announced : Nat → Nat → SandboxBindingChange := fun bindingId version =>
      { tenantId := 1, piSessionId := 4, entityId := bindingId, runId := 2, version, closed := false }
    let before : List RoutingAction :=
      [.load [0], .loadView 0, .loaded 0 true, .register (row 7), .delete 7,
       .change (announced 7 1) true false, .readChange 0, .read 0 true]
    let after : List RoutingAction :=
      [.register (row 8), .change (announced 8 3) true false, .readChange 0, .read 0 true]
    let s' := (({} : Routing).run o (fun _ => 0) before).run o (fun _ => 0) after
    s'.view.entries.get (routeKey 1 2 7) = none ∧
      ∀ row, s'.view.binding 7 = .ok (some row) → row.key = routeKey 1 2 7 →
        row.dispatchClosed = true := by
  intro o row announced before after s'
  have hclosed := closed_never_reopens o (fun _ => 0) before after (routeKey 1 2 7)
  exact ⟨by decide, (hclosed.1 ⟨0, by decide, by decide⟩ (by decide)).2⟩

/-- In every run, what the view holds for closed is closed in the table, and a record that is found by the
id of its binding is found by its route. -/
theorem view_truthful (o : ViewOptions) (sessionHash : Nat → Nat) (actions : List RoutingAction) :
    let s := ({} : Routing).run o sessionHash actions
    (∀ k e, s.view.entries.get k = some e → (s.view.heap e).closed = true → s.table.Dead k) ∧
      ∀ bindingId row, s.view.binding bindingId = .ok (some row) → row.bindingId = bindingId ∧
        s.view.get (some row.tenantId) row.runId row.writerId bindingId = .ok (some row) := by
  intro s
  have h : s.Inv o := Routing.Inv.empty.run actions
  refine ⟨h.dead, fun bindingId row hfound => ?_⟩
  unfold SandboxBindingView.binding at hfound
  split at hfound
  · cases hfound
  · rename_i hready
    obtain ⟨e, he, hr⟩ := Option.bind_eq_some_iff.mp (Except.ok.inj hfound)
    obtain ⟨r, hroute, hid, hentry⟩ := h.view.bindings _ _ he
    rw [hr] at hroute
    cases hroute
    refine ⟨hid, ?_⟩
    have hkey : s.view.entries.get (routeKey row.tenantId row.runId bindingId) = some e := hid ▸ hentry
    unfold SandboxBindingView.get
    rw [if_neg hready]
    dsimp only
    rw [hkey, Option.bind_some, hr, Option.filter_some, if_pos (decide_eq_true rfl)]

end Sandbox
end PiCloud
