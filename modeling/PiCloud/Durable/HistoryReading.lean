import PiCloud.Durable.HistoryStore

/-!
# Durable.HistoryReading

What is read below a root whose identity and digest are known.

* `Stamped`: a node that carries the digest of its content. Where the digest tells contents apart,
  a stamped node is known by its identity and digest (`trust_stamped`).
* `visitRanges_does`: the visit of a tree gives its leaves.
* `stored_nodes_authenticated`: the runs of a directory leave a store that is closed, and a tree
  read from any store whatsoever is the tree that the root was taken from.
-/

namespace PiCloud
namespace Durable
namespace Directory

open Lib

variable {S D : Type} {hash : Nat → DraftNode S D → D}

def TellsApart (hash : Nat → DraftNode S D → D) : Prop :=
  ∀ {i d j e}, hash i d = hash j e → i = j ∧ d = e

def Stamped (_ : Directory hash) (a : HistoryNode S D) : Prop :=
  a.digest = hash a.id a.toDraftNode

theorem Available.stamped {s : Directory hash} {a : HistoryNode S D} (h : Available s a)
    (s' : Directory hash) : Stamped s' a := by
  rcases h with hc | ⟨-, -, hd⟩
  · exact (s.cached hc).2.1
  · exact hd

theorem stamped_unique (hapart : TellsApart hash) {s : Directory hash} {a b : HistoryNode S D}
    (ha : Stamped s a) (hb : Stamped s b) (hdigest : a.digest = b.digest) : a = b := by
  have hsame : hash a.id a.toDraftNode = hash b.id b.toDraftNode := by
    rw [← ha, ← hb, hdigest]
  obtain ⟨hid, hdraft⟩ := hapart hsame
  cases a
  cases b
  simp only at hid hdraft hdigest
  rw [hid, hdraft, hdigest]

variable [DecidableEq D]

theorem trust_stamped (hapart : TellsApart hash) :
    Trust (Stamped : Directory hash → HistoryNode S D → Prop) fun _ => True where
  grows _ ha := ha
  cached {s _} h := (s.cached h).2.1
  unique ha hb _ hdigest := stamped_unique hapart ha hb hdigest
  read := by
    intro s a ha
    refine Does.imp (read_does s a.id fun _ _ => trivial) ?_
    rintro m s' - ⟨hm, -, -⟩
    refine ⟨hm, ?_⟩
    by_cases hdigest : m.digest = a.digest
    · exact .inl (stamped_unique hapart (s := s') (s'.cached hm).2.1 ha hdigest)
    · exact .inr ⟨hdigest, trivial⟩

/-! ## The visit -/

variable {P : Directory hash → HistoryNode S D → Prop} {fails : String → Prop}

/-- The errors that a visit may end with. -/
structure VisitFails (fails : String → Prop) (verify : HistoryRange S → Bool)
    (xs : List (HistoryRange S)) : Prop where
  range : ∀ r ∈ xs, verify r = true ∨ fails "Shared history range integrity check failed"
  branch : fails "Retained history directory branch changed" →
    fails "Shared history directory integrity check failed"

theorem visitRanges_does (T : Trust P fails) {verify : HistoryRange S → Bool} (fuel : Nat)
    {s : Directory hash} {n : HistoryNode S D} {t : RangeTree S} (h : Holds P s n t)
    (hfuel : t.height ≤ fuel) (hv : VisitFails fails verify t.leaves) :
    Does fails (visitRanges verify fuel n) s fun xs _ => xs = t.leaves := by
  induction fuel generalizing s n t with
  | zero =>
    have := t.height_pos
    omega
  | succ fuel ih =>
    unfold visitRanges
    cases t with
    | leaf r =>
      rw [h.built.1]
      simp only
      split
      · exact Does.pure rfl
      · rename_i hno
        rcases hv.range r List.mem_cons_self with hr | hr
        · exact absurd hr hno
        · exact Does.throw hr
    | node l r =>
      obtain ⟨a, b, hk, hs, ha, hb, hl, hr⟩ := h.built
      simp only [hk]
      simp only [LeafTree.height] at hfuel
      refine Does.bind (T.read ha) fun x s₁ g₁ hx => ?_
      refine Does.bind (T.read (T.grows g₁ hb)) fun y s₂ g₂ hy => ?_
      obtain ⟨hxk, hx⟩ := hx
      obtain ⟨hyk, hy⟩ := hy
      split
      · rename_i hchecks
        obtain rfl := hx.resolve_right fun hc => hc.1 hchecks.1
        obtain rfl := hy.resolve_right fun hc => hc.1 hchecks.2.1
        have hleft : Holds P s₂ x l := ⟨g₂.cache hxk, hl.imp fun _ hp => T.grows (g₁.trans g₂) hp⟩
        have hright : Holds P s₂ y r := ⟨hyk, hr.imp fun _ hp => T.grows (g₁.trans g₂) hp⟩
        have hvl : VisitFails fails verify l.leaves :=
          ⟨fun r' hr' => hv.range r' (List.mem_append_left _ hr'), hv.branch⟩
        have hvr : VisitFails fails verify r.leaves :=
          ⟨fun r' hr' => hv.range r' (List.mem_append_right _ hr'), hv.branch⟩
        refine Does.bind (ih hleft (by omega) hvl) fun xs s₃ g₃ hxs => ?_
        refine Does.bind (ih (hright.grows T g₃) (by omega) hvr) fun ys s₄ _ hys => ?_
        rw [hxs, hys]
        exact Does.pure rfl
      · rename_i hchecks
        refine Does.throw (hv.branch ?_)
        rcases hx with rfl | hx
        · rcases hy with rfl | hy
          · refine absurd ⟨rfl, rfl, ?_⟩ hchecks
            rw [hs.count, hl.summary.count, hr.summary.count]
            rfl
          · exact hy.2
        · exact hx.2

theorem visitSequence_does (T : Trust P fails) {verify : HistoryRange S → Bool}
    {s : Directory hash} {k : Option (HistoryNode S D)} {xs : List (HistoryRange S)}
    {balanced : Prop} (h : Lists P s balanced k xs) (hv : VisitFails fails verify xs) :
    Does fails (visitSequence verify k) s fun ys _ => ys = xs := by
  cases h with
  | none => exact Does.pure rfl
  | @some n t holds bal =>
    have hheight := holds.height
    exact visitRanges_does T n.height holds (by omega) hv

/-! ## Through a known root -/

def Only {α : Type} (x : Op hash α) (s : Directory hash) (a : α) : Prop :=
  Ends x s (fun b _ => b = a) fun _ _ => True

omit [DecidableEq D] in
theorem Does.only {α : Type} {x : Op hash α} {s : Directory hash} {a : α}
    (h : Does (fun _ => True) x s fun b _ => b = a) : Only x s a :=
  Ends.imp h (fun _ _ hb => hb.2) fun _ _ _ => trivial

theorem rootNode_does (hapart : TellsApart hash) {s₀ : Directory hash} {n : HistoryNode S D}
    {t : RangeTree S} (h : Holds Available s₀ n t) (s : Directory hash) :
    Does (fun _ => True) (rootNode n.id n.digest) s fun m s' => Holds Stamped s' m t := by
  refine Does.bind (read_does s n.id fun _ _ => trivial) fun m s' _ hm => ?_
  split
  · rename_i hdigest
    obtain rfl : m = n :=
      stamped_unique hapart (s := s') (s'.cached hm.1).2.1 (s₀.cached h.known).2.1 hdigest
    exact Does.pure ⟨hm.1, h.built.imp fun _ ha => ha.stamped s'⟩
  · exact Does.throw trivial

omit [DecidableEq D] in
theorem visitFails_true (verify : HistoryRange S → Bool) (xs : List (HistoryRange S)) :
    VisitFails (fun _ => True) verify xs :=
  ⟨fun _ _ => .inr trivial, fun h => h⟩

/-- Every way to read below a root: its ranges, the ranges of a prefix, of a selection, and of the
join with another root. -/
structure ReadsOnly [DecidableEq S] (s : Directory hash) (n : HistoryNode S D)
    (t : RangeTree S) : Prop where
  visit : ∀ verify, Only (do
      let root ← rootNode n.id n.digest
      visitSequence verify (some root)) s t.leaves
  prefixTo : ∀ verify clip maximumId, Only (do
      let root ← rootNode n.id n.digest
      let k ← Directory.prefixTo clip (some root) maximumId
      visitSequence verify k) s (t.leaves.filterMap (clipLeaf clip maximumId))
  mapRanges : ∀ verify select, Only (do
      let root ← rootNode n.id n.digest
      let k ← Directory.mapRanges select (some root)
      visitSequence verify k) s (t.leaves.filterMap (selectLeaf select))
  join : ∀ verify m u s₀, Holds Available (s₀ : Directory hash) m u → Only (do
      let left ← rootNode n.id n.digest
      let right ← rootNode m.id m.digest
      let k ← Directory.join (some left) (some right)
      visitSequence verify k) s (t.leaves ++ u.leaves)

variable [DecidableEq S]

/-- Whatever the store of `s` answers, the original tree is read or none. -/
theorem reads_only (hapart : TellsApart hash) {s₀ : Directory hash} {n : HistoryNode S D}
    {t : RangeTree S} (h : Holds Available s₀ n t) (s : Directory hash) : ReadsOnly s n t where
  visit verify := by
    refine Does.only (Does.bind (rootNode_does hapart h s) fun root s₁ _ hroot => ?_)
    exact visitSequence_does (trust_stamped hapart) (.some hroot fun hb => hb)
      (visitFails_true verify _)
  prefixTo verify clip maximumId := by
    refine Does.only (Does.bind (rootNode_does hapart h s) fun root s₁ _ hroot => ?_)
    have hheight := hroot.height
    refine Does.bind (prefixWithin_does (trust_stamped hapart) root.height hroot (by omega)
      fun r _ _ _ _ _ => .inr fun _ => trivial) fun k s₂ _ hk => ?_
    exact visitSequence_does (trust_stamped hapart) hk (visitFails_true verify _)
  mapRanges verify select := by
    refine Does.only (Does.bind (rootNode_does hapart h s) fun root s₁ _ hroot => ?_)
    have hheight := hroot.height
    refine Does.bind (mapWithin_does (trust_stamped hapart) root.height hroot (by omega)
      fun r _ _ _ => .inr trivial) fun k s₂ _ hk => ?_
    exact visitSequence_does (trust_stamped hapart) hk (visitFails_true verify _)
  join verify m u s₁ hm := by
    refine Does.only (Does.bind (rootNode_does hapart h s) fun left s₂ _ hleft => ?_)
    refine Does.bind (rootNode_does hapart hm s₂) fun right s₃ g₃ hright => ?_
    have hl : Lists Stamped s₃ False (some left) t.leaves :=
      .some (hleft.grows (trust_stamped hapart) g₃) False.elim
    have hr : Lists Stamped s₃ False (some right) u.leaves := .some hright False.elim
    refine Does.bind (join_does (trust_stamped hapart) hl hr) fun k s₄ _ hk => ?_
    exact visitSequence_does (trust_stamped hapart) hk (visitFails_true verify _)

/-- The batch of a root that a directory has handed out: what is created and not stored below it,
each node once, children first. After it the root is stored. -/
structure PersistsBelow (s : Directory hash) (root : HistoryNode S D) : Prop where
  batch : ∀ n, n ∈ s.pendingOf root ↔ s.created n.id = some n ∧ Below s.created root.id n.id
  once : ((s.pendingOf root).map (·.id)).Nodup
  first : ChildrenFirst s.created (s.pendingOf root)
  fresh : ∀ n ∈ s.pendingOf root, s.store n.id = none
  root : (s.stash root).store root.id = some root

omit [DecidableEq D] [DecidableEq S] in
theorem Closed.persistsBelow {s : Directory hash} (h : Closed s) {root : HistoryNode S D}
    (hroot : Known s root) : PersistsBelow s root := by
  obtain ⟨hbatch, honce, hfirst⟩ := pendingOf_spec h.drawn root
  refine ⟨hbatch, honce, hfirst, fun n hn => (s.held (pendingOf_created hn)).2, ?_⟩
  rcases s.known hroot with hc | hs
  · exact stash_store_of_pending ((hbatch root).mpr ⟨hc, .root⟩)
  · exact stash_store_of_stored hs

/-- Along every run, every child of a stored node is stored under its digest, a batch inserts
children before parents and exactly what is missing, and what is read from any store below a root
of known digest is the tree of that root or nothing. -/
theorem stored_nodes_authenticated (hash : Nat → DraftNode S D → D) (hapart : TellsApart hash)
    (cs : List (Call S D)) (s : Directory hash) (h : Reach (calls hash) cs s) :
    (∀ id n, s.store id = some n → ∀ l r dl dr, n.kind = .branch l r dl dr →
      StoredAs s l dl ∧ StoredAs s r dr) ∧
    (∀ root, Known s root → PersistsBelow s root) ∧
    (∀ n t, Holds Available s n t → ∀ tampered : Directory hash, ReadsOnly tampered n t) := by
  have hclosed := reach_closed h
  refine ⟨?_, fun root hroot => hclosed.persistsBelow hroot, ?_⟩
  · exact fun id n hn l r dl dr hk => hclosed.stored hn hk
  · exact fun n t hn tampered => reads_only hapart hn tampered

/-- A digest that is the content itself. -/
inductive Stamp where
  | of (id : Nat) (draft : DraftNode Unit Stamp)

def twoNode : HistoryNode Unit Stamp :=
  draftOf Stamp.of 0 { minId := 10, maxId := 20, count := 2, height := 1, kind := .range twoRange }

noncomputable instance : DecidableEq Stamp := Classical.decEq Stamp

/-- One range is created and persisted. -/
theorem stored_nodes_authenticated_range :
    ∃ s : Directory Stamp.of, s.store 0 = some twoNode ∧
      ∀ tampered : Directory Stamp.of, ReadsOnly tampered twoNode (.leaf twoRange) := by
  have h₀ : Reach (calls Stamp.of) [] (opened Stamp.of (fun _ => none) 0 fun h => nomatch h) :=
    .init rfl
  have h₁ := h₀.next (a := .range twoRange) ⟨by simp [Call.given], rfl⟩
  have hknown : Known ((Call.range twoRange).after (opened Stamp.of (fun _ => none) 0
      fun h => nomatch h)) twoNode := rfl
  have h₂ := h₁.next (a := .persist (some twoNode))
    ⟨by simpa [Call.given] using allKnown_some hknown, rfl⟩
  have hstored := @stash_store_of_pending _ _ _ ((Call.range twoRange).after
    (opened Stamp.of (fun _ => none) 0 fun h => nomatch h)) twoNode twoNode
    (by exact List.mem_cons_self)
  refine ⟨_, hstored, fun tampered => ?_⟩
  refine (stored_nodes_authenticated Stamp.of ?_ _ _ h₂).2.2 twoNode (.leaf twoRange) ?_ tampered
  · intro i d j e heq
    exact Stamp.of.inj heq
  · exact ⟨rfl, rfl, by decide, ⟨rfl, rfl, rfl, rfl⟩⟩

end Directory
end Durable
end PiCloud
