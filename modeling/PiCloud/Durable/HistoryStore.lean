import PiCloud.Durable.BalancedDirectory
import PiCloud.Durable.HistoryPersist
import PiCloud.Lib.Run

/-!
# Durable.HistoryStore

The store along the runs of a directory.

* `Call`, `calls`: the operations on a directory and their runs over one store.
* `Closed`: every child that a stored node names is stored, under the digest that it is named by.
  It holds along every run (`reach_closed`).
-/

namespace PiCloud
namespace Durable
namespace Directory

open Lib

variable {S D : Type} {hash : Nat → DraftNode S D → D}

/-! ## What an operation does to known nodes -/

def Known (s : Directory hash) (n : HistoryNode S D) : Prop := s.cache n.id = some n

/-- The program ends in a directory that has grown; what it returns is known. -/
abbrev Keeps {α : Type} (x : Op hash α) (s : Directory hash) (Q : α → Directory hash → Prop) :
    Prop :=
  Does (fun _ => True) x s Q

theorem range_known (s : Directory hash) (r : HistoryRange S) :
    Keeps (range r) s fun n s' => Known s' n := by
  unfold range
  split
  · refine Does.imp (create_does (fun _ _ _ _ hk => by cases hk)) ?_
    exact fun n s' _ h => h.1
  · exact Does.throw trivial

theorem pair_known {s : Directory hash} {a b : HistoryNode S D} (ha : Known s a)
    (hb : Known s b) : Keeps (pair a b) s fun n s' => Known s' n :=
  Does.imp (create_does (draws_pair ha hb)) fun _ _ _ h => h.1

variable [DecidableEq D]

theorem read_known (s : Directory hash) (id : Nat) :
    Keeps (read id) s fun n s' => Known s' n ∧ n.id = id :=
  Does.imp (read_does s id fun _ _ => trivial) fun _ _ _ h => ⟨h.1, h.2.1⟩

theorem children_known (s : Directory hash) (n : HistoryNode S D) :
    Keeps (children n) s fun p s' => Known s' p.1 ∧ Known s' p.2 := by
  unfold children
  split
  · exact Does.throw trivial
  · refine Does.bind (read_known s _) fun a s₁ _ ha => ?_
    refine Does.bind (read_known s₁ _) fun b s₂ g₂ hb => ?_
    split
    · exact Does.pure ⟨g₂.cache ha.1, hb.1⟩
    · exact Does.throw trivial

theorem balance_known {s : Directory hash} {m n : HistoryNode S D} (hm : Known s m)
    (hn : Known s n) : Keeps (balance m n) s fun k s' => Known s' k := by
  unfold balance
  split
  · refine Does.bind (children_known s m) ?_
    rintro ⟨a, b⟩ s₁ g₁ ⟨ha, hb⟩
    simp only at ha hb ⊢
    split
    · refine Does.bind (pair_known hb (g₁.cache hn)) fun x s₂ g₂ hx => ?_
      exact pair_known (g₂.cache ha) hx
    · refine Does.bind (children_known s₁ b) ?_
      rintro ⟨c, d⟩ s₂ g₂ ⟨hc, hd⟩
      refine Does.bind (pair_known (g₂.cache ha) hc) fun x s₃ g₃ hx => ?_
      refine Does.bind (pair_known (g₃.cache hd) (g₃.cache (g₂.cache (g₁.cache hn))))
        fun y s₄ g₄ hy => ?_
      exact pair_known (g₄.cache hx) hy
  · split
    · refine Does.bind (children_known s n) ?_
      rintro ⟨a, b⟩ s₁ g₁ ⟨ha, hb⟩
      simp only at ha hb ⊢
      split
      · refine Does.bind (pair_known (g₁.cache hm) ha) fun x s₂ g₂ hx => ?_
        exact pair_known hx (g₂.cache hb)
      · refine Does.bind (children_known s₁ a) ?_
        rintro ⟨c, d⟩ s₂ g₂ ⟨hc, hd⟩
        refine Does.bind (pair_known (g₂.cache (g₁.cache hm)) hc) fun x s₃ g₃ hx => ?_
        refine Does.bind (pair_known (g₃.cache hd) (g₃.cache (g₂.cache hb)))
          fun y s₄ g₄ hy => ?_
        exact pair_known (g₄.cache hx) hy
    · exact pair_known hm hn

theorem joinWithin_known (fuel : Nat) {s : Directory hash} {m n : HistoryNode S D}
    (hm : Known s m) (hn : Known s n) :
    Keeps (joinWithin fuel m n) s fun k s' => Known s' k := by
  induction fuel generalizing s m n with
  | zero => exact pair_known hm hn
  | succ fuel ih =>
    unfold joinWithin
    split
    · refine Does.bind (children_known s m) ?_
      rintro ⟨a, b⟩ s₁ g₁ ⟨ha, hb⟩
      refine Does.bind (ih hb (g₁.cache hn)) fun x s₂ g₂ hx => ?_
      exact balance_known (g₂.cache ha) hx
    · split
      · refine Does.bind (children_known s n) ?_
        rintro ⟨a, b⟩ s₁ g₁ ⟨ha, hb⟩
        refine Does.bind (ih (g₁.cache hm) ha) fun x s₂ g₂ hx => ?_
        exact balance_known hx (g₂.cache hb)
      · exact pair_known hm hn

def AllKnown (s : Directory hash) (m : Option (HistoryNode S D)) : Prop := ∀ n ∈ m, Known s n

omit [DecidableEq D] in
theorem AllKnown.grows {s s' : Directory hash} {m : Option (HistoryNode S D)}
    (h : AllKnown s m) (hg : Grows s s') : AllKnown s' m := fun n hn => hg.cache (h n hn)

omit [DecidableEq D] in
theorem allKnown_some {s : Directory hash} {n : HistoryNode S D} (h : Known s n) :
    AllKnown s (some n) := by
  intro m hm
  cases hm
  exact h

omit [DecidableEq D] in
theorem allKnown_none (s : Directory hash) : AllKnown s none := fun _ hn => nomatch hn

theorem join_known {s : Directory hash} {m n : Option (HistoryNode S D)} (hm : AllKnown s m)
    (hn : AllKnown s n) : Keeps (join m n) s fun k s' => AllKnown s' k := by
  cases m with
  | none => exact Does.pure hn
  | some a =>
    cases n with
    | none => exact Does.pure hm
    | some b =>
      refine Does.bind (joinWithin_known _ (hm a rfl) (hn b rfl)) fun k s' _ hk => ?_
      exact Does.pure (allKnown_some hk)

theorem mapWithin_known (select : HistoryRange S → Selected S) (fuel : Nat) {s : Directory hash}
    {n : HistoryNode S D} (hn : Known s n) :
    Keeps (mapWithin select fuel n) s fun k s' => AllKnown s' k := by
  induction fuel generalizing s n with
  | zero =>
    unfold mapWithin
    split
    · split
      · exact Does.pure (allKnown_some hn)
      · refine Does.bind (range_known s _) fun k s' _ hk => ?_
        exact Does.pure (allKnown_some hk)
      · exact Does.pure (allKnown_none s)
    · exact Does.bind (children_known s n) fun _ _ _ _ => Does.throw trivial
  | succ fuel ih =>
    unfold mapWithin
    split
    · split
      · exact Does.pure (allKnown_some hn)
      · refine Does.bind (range_known s _) fun k s' _ hk => ?_
        exact Does.pure (allKnown_some hk)
      · exact Does.pure (allKnown_none s)
    · refine Does.bind (children_known s n) ?_
      rintro ⟨a, b⟩ s₁ g₁ ⟨ha, hb⟩
      refine Does.bind (ih ha) fun x s₂ g₂ hx => ?_
      refine Does.bind (ih (g₂.cache hb)) fun y s₃ g₃ hy => ?_
      split
      · exact Does.pure (allKnown_some (g₃.cache (g₂.cache (g₁.cache hn))))
      · exact join_known (hx.grows g₃) hy

variable [DecidableEq S]

theorem prefixWithin_known (clip : HistoryRange S → Int → Option (HistoryRange S))
    (maximumId : Int) (fuel : Nat) {s : Directory hash} {n : HistoryNode S D} (hn : Known s n) :
    Keeps (prefixWithin clip maximumId fuel n) s fun k s' => AllKnown s' k := by
  induction fuel generalizing s n with
  | zero =>
    unfold prefixWithin
    split
    · exact Does.pure (allKnown_none s)
    · split
      · exact Does.pure (allKnown_some hn)
      · split
        · split
          · exact Does.pure (allKnown_none s)
          · split
            · exact Does.throw trivial
            · refine Does.bind (range_known s _) fun k s' _ hk => ?_
              exact Does.pure (allKnown_some hk)
        · exact Does.bind (children_known s n) fun _ _ _ _ => Does.throw trivial
  | succ fuel ih =>
    unfold prefixWithin
    split
    · exact Does.pure (allKnown_none s)
    · split
      · exact Does.pure (allKnown_some hn)
      · split
        · split
          · exact Does.pure (allKnown_none s)
          · split
            · exact Does.throw trivial
            · refine Does.bind (range_known s _) fun k s' _ hk => ?_
              exact Does.pure (allKnown_some hk)
        · refine Does.bind (children_known s n) ?_
          rintro ⟨a, b⟩ s₁ g₁ ⟨ha, hb⟩
          refine Does.bind (ih ha) fun x s₂ g₂ hx => ?_
          refine Does.bind (ih (g₂.cache hb)) fun y s₃ g₃ hy => ?_
          exact join_known (hx.grows g₃) hy

/-! ## Runs -/

/-- The calls on a directory; `reopen` is a new directory over the same store. -/
inductive Call (S D : Type) where
  | reopen
  | read (id : Nat)
  | range (r : HistoryRange S)
  | join (m n : Option (HistoryNode S D))
  | prefixTo (clip : HistoryRange S → Int → Option (HistoryRange S))
      (m : Option (HistoryNode S D)) (maximumId : Int)
  | mapRanges (select : HistoryRange S → Selected S) (m : Option (HistoryNode S D))
  | persist (m : Option (HistoryNode S D))

/-- The nodes that a call is given. -/
def Call.given : Call S D → List (Option (HistoryNode S D))
  | .join m n => [m, n]
  | .prefixTo _ m _ | .mapRanges _ m | .persist m => [m]
  | _ => []

/-- The directory after a call, whether it returns or throws. -/
def Call.after (s : Directory hash) : Call S D → Directory hash
  | .reopen => opened hash s.store s.next s.stored
  | .read id => ((Directory.read id).run s).2
  | .range r => ((Directory.range r).run s).2
  | .join m n => ((Directory.join m n).run s).2
  | .prefixTo clip m maximumId => ((Directory.prefixTo clip m maximumId).run s).2
  | .mapRanges select m => ((Directory.mapRanges select m).run s).2
  | .persist m => ((Directory.persist m).run s).2

/-- The runs of directories over a store that is empty at first. A call is given nodes that the
directory has handed out. -/
def calls (hash : Nat → DraftNode S D → D) : System (Directory hash) (Call S D) where
  init s := s = opened hash (fun _ => none) 0 fun h => nomatch h
  step s c s' := (∀ m ∈ c.given, AllKnown s m) ∧ s' = c.after s

def StoredAs (s : Directory hash) (id : Nat) (digest : D) : Prop :=
  ∃ a, s.store id = some a ∧ a.digest = digest

structure Closed (s : Directory hash) : Prop where
  created : ∀ {id n}, s.created id = some n → Linked s n
  stored : ∀ {id n l r dl dr}, s.store id = some n → n.kind = .branch l r dl dr →
    StoredAs s l dl ∧ StoredAs s r dr

omit [DecidableEq D] [DecidableEq S] in
theorem Closed.grows {s s' : Directory hash} (h : Closed s) (hg : Grows s s') : Closed s' where
  created := by
    intro id n hn
    rcases hg.made hn with hn | hn
    · exact (h.created hn).mono hg.cache
    · exact hn
  stored := by
    intro id n l r dl dr hn hk
    unfold StoredAs
    rw [hg.store] at hn ⊢
    exact h.stored hn hk

omit [DecidableEq D] [DecidableEq S] in
theorem Closed.drawn {s : Directory hash} (h : Closed s) : Drawn s.created := by
  intro id n hn
  have hid := (s.cached (s.held hn).1).1
  refine ⟨hid, ?_⟩
  rintro c ⟨l, r, dl, dr, hk, hc⟩
  obtain ⟨⟨-, hl⟩, -, hr⟩ := h.created hn l r dl dr hk
  rcases hc with rfl | rfl
  · exact hid ▸ hl
  · exact hid ▸ hr

omit [DecidableEq D] [DecidableEq S] in
theorem stash_store_of_stored {s : Directory hash} {root n : HistoryNode S D} {id : Nat}
    (h : s.store id = some n) : (s.stash root).store id = some n := by
  refine (insertAll_of_not_mem ?_ s.store).trans h
  rintro m hm rfl
  rw [(s.held (pendingOf_created hm)).2] at h
  cases h

omit [DecidableEq D] [DecidableEq S] in
theorem stash_store_of_pending {s : Directory hash} {root n : HistoryNode S D}
    (h : n ∈ s.pendingOf root) : (s.stash root).store n.id = some n :=
  insertAll_of_mem h (fun _ hm hid => pendingOf_unique h hm hid) s.store

omit [DecidableEq D] [DecidableEq S] in
theorem stash_store {s : Directory hash} {root n : HistoryNode S D} {id : Nat}
    (h : (s.stash root).store id = some n) : s.store id = some n ∨ n ∈ s.pendingOf root := by
  by_cases hin : ∃ m ∈ s.pendingOf root, m.id = id
  · obtain ⟨m, hm, rfl⟩ := hin
    rw [stash_store_of_pending hm] at h
    exact .inr (Option.some.inj h ▸ hm)
  · left
    exact (insertAll_of_not_mem (fun m hm heq => hin ⟨m, hm, heq⟩) s.store).symm.trans h

omit [DecidableEq D] [DecidableEq S] in
theorem stash_child {s : Directory hash} (h : Closed s) {root n : HistoryNode S D}
    (hn : n ∈ s.pendingOf root) {c : Nat} {digest : D} (hchild : Child n c)
    (hc : Names s c digest) : StoredAs (s.stash root) c digest := by
  obtain ⟨a, ha, hd⟩ := hc
  refine ⟨a, ?_, hd⟩
  rcases s.known ha with hcreated | hstored
  · have hin : a ∈ s.pendingOf root :=
      childrenFirst_mem (pendingOf_spec h.drawn root).2.2 hn hchild hcreated
    rw [← (s.cached ha).1]
    exact stash_store_of_pending hin
  · exact stash_store_of_stored hstored

omit [DecidableEq D] [DecidableEq S] in
theorem Closed.stash {s : Directory hash} (h : Closed s) (root : HistoryNode S D) :
    Closed (s.stash root) where
  created := by
    intro id n hn
    have hcreated : s.created id = some n := by
      by_cases hin : ∃ m ∈ s.pendingOf root, m.id = id
      · obtain ⟨m, hm, rfl⟩ := hin
        have hnone : (s.stash root).created m.id = none := deleteAll_of_mem hm _
        rw [hnone] at hn
        cases hn
      · have hno : ∀ m ∈ s.pendingOf root, m.id ≠ id := fun m hm heq => hin ⟨m, hm, heq⟩
        exact (deleteAll_of_not_mem hno s.created).symm.trans hn
    exact (h.created hcreated).mono fun hc => hc
  stored := by
    intro id n l r dl dr hn hk
    rcases stash_store hn with hn | hn
    · obtain ⟨⟨a, ha, hda⟩, b, hb, hdb⟩ := h.stored hn hk
      exact ⟨⟨a, stash_store_of_stored ha, hda⟩, b, stash_store_of_stored hb, hdb⟩
    · obtain ⟨⟨hl, -⟩, hr, -⟩ := h.created (pendingOf_created hn) l r dl dr hk
      exact ⟨stash_child h hn ⟨l, r, dl, dr, hk, .inl rfl⟩ hl,
        stash_child h hn ⟨l, r, dl, dr, hk, .inr rfl⟩ hr⟩

omit [DecidableEq D] [DecidableEq S] in
theorem Keeps.closed {α : Type} {x : Op hash α} {s : Directory hash}
    {Q : α → Directory hash → Prop} (hx : Keeps x s Q) (h : Closed s) : Closed (x.run s).2 := by
  unfold Keeps Does Ends at hx
  rcases hr : x.run s with ⟨e | a, s'⟩
  · rw [hr] at hx
    exact h.grows hx.1
  · rw [hr] at hx
    exact h.grows hx.1

theorem closed_after {s : Directory hash} (h : Closed s) (c : Call S D)
    (hc : ∀ m ∈ c.given, AllKnown s m) : Closed (c.after s) := by
  cases c with
  | reopen => exact ⟨fun hn => (by cases hn), h.stored⟩
  | read id => exact (read_known s id).closed h
  | range r => exact (range_known s r).closed h
  | join m n => exact (join_known (hc m (by simp [Call.given])) (hc n (by simp [Call.given]))).closed h
  | prefixTo clip m maximumId =>
    cases m with
    | none => exact h
    | some n => exact (prefixWithin_known clip maximumId _ (hc _ List.mem_cons_self n rfl)).closed h
  | mapRanges select m =>
    cases m with
    | none => exact h
    | some n => exact (mapWithin_known select _ (hc _ List.mem_cons_self n rfl)).closed h
  | persist m =>
    cases m with
    | none => exact h
    | some n => exact h.stash n

theorem reach_closed {cs : List (Call S D)} {s : Directory hash} (h : Reach (calls hash) cs s) :
    Closed s := by
  refine Reach.invariant Closed ?_ ?_ h
  · rintro s rfl
    exact ⟨fun hn => (by cases hn), fun hn => (by cases hn)⟩
  · rintro s c s' hs ⟨hgiven, rfl⟩
    exact closed_after hs c hgiven

end Directory
end Durable
end PiCloud
