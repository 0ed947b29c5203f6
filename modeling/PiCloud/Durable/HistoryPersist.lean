import PiCloud.Durable.HistoryDirectory

/-!
# Durable.HistoryPersist

`HistoryDirectory.persist`: the nodes that a root needs and that are not stored yet are inserted in
one batch, children first.

* `visit`, `pendingOf`: the nodes of the batch.
* `persist`: the insertion; the inserted nodes are created ones no longer.
* `visit_spec`: what the batch has, and in which order.
-/

namespace PiCloud
namespace Durable
namespace Directory

open Lib

variable {S D : Type} {hash : Nat → DraftNode S D → D}

/-- The identities seen and the nodes to insert. -/
structure Visit (S D : Type) where
  seen : List Nat := []
  pending : List (HistoryNode S D) := []

/-- The recursion goes to a child, whose identity was drawn before. -/
def visit (created : Nat → Option (HistoryNode S D)) :
    Nat → Nat → Visit S D → Visit S D
  | 0, _, v => v
  | fuel + 1, id, v =>
    if id ∈ v.seen then v
    else
      let v : Visit S D := { v with seen := id :: v.seen }
      match created id with
      | none => v
      | some node =>
        let v :=
          match node.kind with
          | .range _ => v
          | .branch left right _ _ => visit created fuel right (visit created fuel left v)
        { v with pending := v.pending ++ [node] }

def pendingOf (s : Directory hash) (root : HistoryNode S D) : List (HistoryNode S D) :=
  (visit s.created (root.id + 1) root.id {}).pending

/-- The store with a batch of nodes. -/
def insertAll (store : Nat → Option (HistoryNode S D)) :
    List (HistoryNode S D) → Nat → Option (HistoryNode S D)
  | [] => store
  | node :: nodes => insertAll (Function.update store node.id (some node)) nodes

def deleteAll (created : Nat → Option (HistoryNode S D)) :
    List (HistoryNode S D) → Nat → Option (HistoryNode S D)
  | [] => created
  | node :: nodes => deleteAll (Function.update created node.id none) nodes

theorem insertAll_of_not_mem {nodes : List (HistoryNode S D)} {id : Nat}
    (h : ∀ n ∈ nodes, n.id ≠ id) (store : Nat → Option (HistoryNode S D)) :
    insertAll store nodes id = store id := by
  induction nodes generalizing store with
  | nil => rfl
  | cons n nodes ih =>
    have hn := h n List.mem_cons_self
    rw [insertAll, ih (fun m hm => h m (List.mem_cons_of_mem _ hm)),
      Function.update_of_ne (Ne.symm hn)]

theorem insertAll_of_mem {nodes : List (HistoryNode S D)} {n : HistoryNode S D} (hn : n ∈ nodes)
    (h : ∀ m ∈ nodes, m.id = n.id → m = n) (store : Nat → Option (HistoryNode S D)) :
    insertAll store nodes n.id = some n := by
  induction nodes generalizing store with
  | nil => simp at hn
  | cons a nodes ih =>
    have hrest : ∀ m ∈ nodes, m.id = n.id → m = n := fun m hm => h m (List.mem_cons_of_mem _ hm)
    rw [insertAll]
    by_cases hin : n ∈ nodes
    · exact ih hin hrest _
    · obtain rfl : n = a := (List.mem_cons.mp hn).resolve_right hin
      rw [insertAll_of_not_mem, Function.update_self]
      intro m hm hid
      exact hin (hrest m hm hid ▸ hm)

theorem deleteAll_of_not_mem {nodes : List (HistoryNode S D)} {id : Nat}
    (h : ∀ n ∈ nodes, n.id ≠ id) (created : Nat → Option (HistoryNode S D)) :
    deleteAll created nodes id = created id := by
  induction nodes generalizing created with
  | nil => rfl
  | cons n nodes ih =>
    have hn := h n List.mem_cons_self
    rw [deleteAll, ih (fun m hm => h m (List.mem_cons_of_mem _ hm)),
      Function.update_of_ne (Ne.symm hn)]

theorem deleteAll_of_mem {nodes : List (HistoryNode S D)} {n : HistoryNode S D} (hn : n ∈ nodes)
    (created : Nat → Option (HistoryNode S D)) : deleteAll created nodes n.id = none := by
  have hnone : ∀ (nodes : List (HistoryNode S D)) created, created n.id = none →
      deleteAll created nodes n.id = none := by
    intro nodes
    induction nodes with
    | nil => exact fun _ h => h
    | cons a nodes ih =>
      intro created h
      rw [deleteAll]
      refine ih _ ?_
      by_cases hid : n.id = a.id
      · rw [hid, Function.update_self]
      · rw [Function.update_of_ne hid, h]
  induction nodes generalizing created with
  | nil => simp at hn
  | cons a nodes ih =>
    rw [deleteAll]
    rcases List.mem_cons.mp hn with rfl | hn
    · exact hnone nodes _ (Function.update_self _ _ _)
    · exact ih hn _

theorem visit_created (created : Nat → Option (HistoryNode S D)) (fuel : Nat) :
    ∀ (id : Nat) (v : Visit S D), (∀ n ∈ v.pending, ∃ i, created i = some n) →
      ∀ n ∈ (visit created fuel id v).pending, ∃ i, created i = some n := by
  induction fuel with
  | zero => exact fun _ _ h => h
  | succ fuel ih =>
    intro id v h
    unfold visit
    split
    · exact h
    · cases hn : created id with
      | none => exact h
      | some node =>
        intro n hm
        rcases List.mem_append.mp hm with hm | hm
        · cases hk : node.kind with
          | range r =>
            rw [hk] at hm
            exact h n hm
          | branch l r dl dr =>
            rw [hk] at hm
            exact ih r _ (ih l { v with seen := id :: v.seen } h) n hm
        · obtain rfl := List.mem_singleton.mp hm
          exact ⟨id, hn⟩

theorem pendingOf_created {s : Directory hash} {root n : HistoryNode S D}
    (h : n ∈ s.pendingOf root) : s.created n.id = some n := by
  obtain ⟨i, hi⟩ := visit_created s.created (root.id + 1) root.id {} (by simp) n h
  rw [(s.cached (s.held hi).1).1]
  exact hi

theorem pendingOf_unique {s : Directory hash} {root n m : HistoryNode S D}
    (hn : n ∈ s.pendingOf root) (hm : m ∈ s.pendingOf root) (hid : m.id = n.id) : m = n := by
  have h := pendingOf_created hm
  rw [hid, pendingOf_created hn] at h
  exact (Option.some.inj h).symm

/-- The directory after the batch of a root is inserted. -/
def stash (s : Directory hash) (root : HistoryNode S D) : Directory hash where
  cache := s.cache
  created := deleteAll s.created (s.pendingOf root)
  store := insertAll s.store (s.pendingOf root)
  next := s.next
  cached := s.cached
  held := by
    intro id n h
    by_cases hin : ∃ m ∈ s.pendingOf root, m.id = id
    · obtain ⟨m, hm, rfl⟩ := hin
      rw [deleteAll_of_mem hm] at h
      cases h
    · have hno : ∀ m ∈ s.pendingOf root, m.id ≠ id := fun m hm heq => hin ⟨m, hm, heq⟩
      rw [deleteAll_of_not_mem hno] at h
      rw [insertAll_of_not_mem hno]
      exact s.held h
  known := by
    intro id n h
    by_cases hin : ∃ m ∈ s.pendingOf root, m.id = id
    · obtain ⟨m, hm, rfl⟩ := hin
      right
      rw [(s.held (pendingOf_created hm)).1] at h
      cases h
      exact insertAll_of_mem hm (fun m' hm' hid => pendingOf_unique hm hm' hid) _
    · have hno : ∀ m ∈ s.pendingOf root, m.id ≠ id := fun m hm heq => hin ⟨m, hm, heq⟩
      rw [deleteAll_of_not_mem hno, insertAll_of_not_mem hno]
      exact s.known h
  stored := by
    intro id n h
    by_cases hin : ∃ m ∈ s.pendingOf root, m.id = id
    · obtain ⟨m, hm, rfl⟩ := hin
      exact (s.cached (s.held (pendingOf_created hm)).1).2.2
    · have hno : ∀ m ∈ s.pendingOf root, m.id ≠ id := fun m hm heq => hin ⟨m, hm, heq⟩
      rw [insertAll_of_not_mem hno] at h
      exact s.stored h

def persist (root : Option (HistoryNode S D)) : Op hash (Option Nat) := fun s =>
  match root with
  | none => (.ok none, s)
  | some root => (.ok (some root.id), s.stash root)

/-! ## The batch -/

variable {created : Nat → Option (HistoryNode S D)}

def Child (n : HistoryNode S D) (id : Nat) : Prop :=
  ∃ l r dl dr, n.kind = .branch l r dl dr ∧ (id = l ∨ id = r)

def Drawn (created : Nat → Option (HistoryNode S D)) : Prop :=
  ∀ id n, created id = some n → n.id = id ∧ ∀ c, Child n c → c < id

/-- Children first: a child that is to be inserted too stands before the node. -/
inductive ChildrenFirst (created : Nat → Option (HistoryNode S D)) :
    List (HistoryNode S D) → Prop where
  | nil : ChildrenFirst created []
  | snoc {nodes n} : ChildrenFirst created nodes →
      (∀ c, Child n c → ∀ m, created c = some m → m ∈ nodes) → ChildrenFirst created (nodes ++ [n])

theorem childrenFirst_mem {nodes : List (HistoryNode S D)} (h : ChildrenFirst created nodes)
    {n m : HistoryNode S D} {c : Nat} (hn : n ∈ nodes) (hc : Child n c)
    (hm : created c = some m) : m ∈ nodes := by
  induction h with
  | nil => simp at hn
  | snoc h hlast ih =>
    rcases List.mem_append.mp hn with hn | hn
    · exact List.mem_append_left _ (ih hn)
    · obtain rfl := List.mem_singleton.mp hn
      exact List.mem_append_left _ (hlast c hc m hm)

/-- The identities below a root, as far as the created nodes go. -/
inductive Below (created : Nat → Option (HistoryNode S D)) (root : Nat) : Nat → Prop where
  | root : Below created root root
  | child {id n c} : Below created root id → created id = some n → Child n c → Below created root c

theorem Below.trans {a b c : Nat} (h : Below created a b) (h' : Below created b c) :
    Below created a c := by
  induction h' with
  | root => exact h
  | child _ hn hc ih => exact .child ih hn hc

/-- What a visit has found by any time. -/
structure Found (created : Nat → Option (HistoryNode S D)) (v : Visit S D) : Prop where
  pending : ∀ n ∈ v.pending, created n.id = some n ∧ n.id ∈ v.seen
  distinct : (v.pending.map (·.id)).Nodup
  first : ChildrenFirst created v.pending

def DoneBelow (created : Nat → Option (HistoryNode S D)) (v : Visit S D) (bound : Nat) :
    Prop :=
  ∀ id ∈ v.seen, id < bound → ∀ n, created id = some n → n ∈ v.pending

/-- What the visit of an identity adds. -/
structure Visited (created : Nat → Option (HistoryNode S D)) (id : Nat)
    (v v' : Visit S D) : Prop where
  found : Found created v'
  done : ∀ bound, id < bound → DoneBelow created v bound → DoneBelow created v' bound
  here : id ∈ v'.seen
  seen : ∀ i ∈ v.seen, i ∈ v'.seen
  kept : ∀ n ∈ v.pending, n ∈ v'.pending
  below : ∀ i ∈ v'.seen, i ∈ v.seen ∨ i ≤ id
  under : ∀ n ∈ v'.pending, n ∈ v.pending ∨ Below created id n.id

theorem Visited.same {id : Nat} {v : Visit S D} (hv : Found created v) (h : id ∈ v.seen) :
    Visited created id v v where
  found := hv
  done _ _ hd := hd
  here := h
  seen _ hi := hi
  kept _ hn := hn
  below _ hi := .inl hi
  under _ hn := .inl hn

theorem DoneBelow.mono {v : Visit S D} {bound bound' : Nat} (h : DoneBelow created v bound)
    (hle : bound' ≤ bound) : DoneBelow created v bound' :=
  fun i hi hlt => h i hi (by omega)

theorem Visited.push {id : Nat} {n : HistoryNode S D} {v v' : Visit S D}
    (hn : created id = some n) (hid : n.id = id) (hnew : id ∉ v.seen) (hv : Found created v)
    (hf : Found created v') (hhere : id ∈ v'.seen) (hseen : ∀ i ∈ v.seen, i ∈ v'.seen)
    (hkept : ∀ m ∈ v.pending, m ∈ v'.pending) (hbelow : ∀ i ∈ v'.seen, i ∈ v.seen ∨ i ≤ id)
    (hdone : DoneBelow created v' id)
    (hunder : ∀ m ∈ v'.pending, m ∈ v.pending ∨ Below created id m.id ∧ m.id < id)
    (hchildren : ∀ c, Child n c → ∀ m, created c = some m → m ∈ v'.pending) :
    Visited created id v { v' with pending := v'.pending ++ [n] } where
  found := {
    pending := by
      intro m hm
      rcases List.mem_append.mp hm with hm | hm
      · exact hf.pending m hm
      · obtain rfl := List.mem_singleton.mp hm
        rw [hid]
        exact ⟨hn, hhere⟩
    distinct := by
      simp only [List.map_append, List.map_cons, List.map_nil]
      refine List.nodup_append.mpr ⟨hf.distinct, by simp, ?_⟩
      intro i hi j hj heq
      obtain rfl := List.mem_singleton.mp hj
      obtain ⟨m, hm, rfl⟩ := List.mem_map.mp hi
      rcases hunder m hm with hm | hm
      · exact hnew (by rw [← hid, ← heq]; exact (hv.pending m hm).2)
      · omega
    first := .snoc hf.first hchildren }
  done := by
    intro bound hb hd i hi hib m hm
    simp only [List.mem_append, List.mem_singleton]
    by_cases hlt : i < id
    · exact .inl (hdone i hi hlt m hm)
    · rcases hbelow i hi with hi | hi
      · exact .inl (hkept m (hd i hi hib m hm))
      · have : i = id := by omega
        subst this
        rw [hn] at hm
        exact .inr (Option.some.inj hm).symm
  here := hhere
  seen := hseen
  kept m hm := List.mem_append_left _ (hkept m hm)
  below := hbelow
  under := by
    intro m hm
    rcases List.mem_append.mp hm with hm | hm
    · rcases hunder m hm with hm | hm
      · exact .inl hm
      · exact .inr hm.1
    · obtain rfl := List.mem_singleton.mp hm
      rw [hid]
      exact .inr .root

theorem below_le (hc : Drawn created) {a b : Nat} (h : Below created a b) : b ≤ a := by
  induction h with
  | root => exact Nat.le_refl _
  | child _ hn hchild ih =>
    have := (hc _ _ hn).2 _ hchild
    omega

theorem visit_spec (hc : Drawn created) (fuel : Nat) :
    ∀ (id : Nat) (v : Visit S D), id < fuel → Found created v → DoneBelow created v (id + 1) →
      Visited created id v (visit created fuel id v) := by
  induction fuel with
  | zero => exact fun _ _ h _ _ => absurd h (Nat.not_lt_zero _)
  | succ fuel ih =>
    intro id v hid hv hd
    unfold visit
    split
    · rename_i hin
      exact Visited.same hv hin
    · rename_i hnew
      have hv' : Found created { v with seen := id :: v.seen } :=
        ⟨fun n hn => ⟨(hv.pending n hn).1, List.mem_cons_of_mem _ (hv.pending n hn).2⟩,
          hv.distinct, hv.first⟩
      have hcons : ∀ i ∈ id :: v.seen, i ∈ v.seen ∨ i ≤ id := by
        intro i hi
        rcases List.mem_cons.mp hi with rfl | hi
        · exact .inr (Nat.le_refl _)
        · exact .inl hi
      have hstart : DoneBelow created { v with seen := id :: v.seen } id := by
        intro i hi hlt m hm
        rcases List.mem_cons.mp hi with rfl | hi
        · exact absurd hlt (Nat.lt_irrefl _)
        · exact hd i hi (by omega) m hm
      cases hn : created id with
      | none =>
        exact {
          found := hv'
          done := by
            intro bound hb hd i hi hlt m hm
            rcases List.mem_cons.mp hi with rfl | hi
            · rw [hn] at hm
              cases hm
            · exact hd i hi hlt m hm
          here := List.mem_cons_self
          seen := fun i hi => List.mem_cons_of_mem _ hi
          kept := fun m hm => hm
          below := hcons
          under := fun m hm => .inl hm }
      | some n =>
        obtain ⟨hnid, hchild⟩ := hc id n hn
        cases hk : n.kind with
        | range r =>
          simp only [hk]
          refine Visited.push hn hnid hnew hv hv' List.mem_cons_self
            (fun i hi => List.mem_cons_of_mem _ hi) (fun m hm => hm) hcons hstart
            (fun m hm => .inl hm) ?_
          rintro c ⟨l, r, dl, dr, hkind, -⟩
          rw [hk] at hkind
          cases hkind
        | branch l r dl dr =>
          have hcl : Child n l := ⟨l, r, dl, dr, hk, .inl rfl⟩
          have hcr : Child n r := ⟨l, r, dl, dr, hk, .inr rfl⟩
          have hl := hchild l hcl
          have hr := hchild r hcr
          have h₁ := ih l _ (by omega) hv' (hstart.mono (by omega))
          have hmid := h₁.done id hl hstart
          have h₂ := ih r _ (by omega) h₁.found (hmid.mono (by omega))
          have hend := h₂.done id hr hmid
          simp only [hk]
          refine Visited.push hn hnid hnew hv h₂.found
            (h₂.seen _ (h₁.seen _ List.mem_cons_self))
            (fun i hi => h₂.seen _ (h₁.seen _ (List.mem_cons_of_mem _ hi)))
            (fun m hm => h₂.kept _ (h₁.kept m hm)) ?_ hend ?_ ?_
          · intro i hi
            rcases h₂.below i hi with hi | hi
            · rcases h₁.below i hi with hi | hi
              · exact hcons i hi
              · exact .inr (by omega)
            · exact .inr (by omega)
          · intro m hm
            rcases h₂.under m hm with hm | hm
            · rcases h₁.under m hm with hm | hm
              · exact .inl hm
              · have hle := below_le hc hm
                exact .inr ⟨(Below.child .root hn hcl).trans hm, by omega⟩
            · have hle := below_le hc hm
              exact .inr ⟨(Below.child .root hn hcr).trans hm, by omega⟩
          · rintro c ⟨l', r', dl', dr', hkind, hcase⟩ m hm
            rw [hk] at hkind
            cases hkind
            rcases hcase with rfl | rfl
            · exact hend c (h₂.seen c h₁.here) hl m hm
            · exact hend c h₂.here hr m hm

theorem pendingOf_spec {s : Directory hash} (hc : Drawn s.created) (root : HistoryNode S D) :
    (∀ n, n ∈ s.pendingOf root ↔ s.created n.id = some n ∧ Below s.created root.id n.id) ∧
      ((s.pendingOf root).map (·.id)).Nodup ∧ ChildrenFirst s.created (s.pendingOf root) := by
  have hnil : ∀ bound, DoneBelow s.created {} bound := by
    intro bound i hi
    simp at hi
  have hv := visit_spec hc (root.id + 1) root.id {} (Nat.lt_succ_self _)
    ⟨by simp, List.nodup_nil, .nil⟩ (hnil _)
  have hdone := hv.done (root.id + 1) (Nat.lt_succ_self _) (hnil _)
  refine ⟨fun n => ⟨fun hn => ?_, ?_⟩, hv.found.distinct, hv.found.first⟩
  · refine ⟨pendingOf_created hn, ?_⟩
    rcases hv.under n hn with h | h
    · simp at h
    · exact h
  · rintro ⟨hn, hbelow⟩
    -- along the way down from the root, every created node is in the batch
    have hall : ∀ id, Below s.created root.id id → ∀ m, s.created id = some m →
        m ∈ s.pendingOf root := by
      intro id hb
      induction hb with
      | root => exact fun m hm => hdone root.id hv.here (Nat.lt_succ_self _) m hm
      | child hb hp hchild ih =>
        intro m hm
        exact childrenFirst_mem hv.found.first (ih _ hp) hchild hm
    exact hall n.id hbelow n hn

end Directory
end Durable
end PiCloud
