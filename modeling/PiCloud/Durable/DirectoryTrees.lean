import PiCloud.Durable.HistoryDirectory

/-!
# Durable.DirectoryTrees

The nodes of a directory as the trees they stand for, and its operations as operations on trees.

* `Holds P s n t`: the node is known in `s` and stands for the tree, its children being nodes that
  `P` vouches for. `Trust` is what `P` has to do for that.
* `Grows`: what an operation may change. A tree that stood before it stands after it.
* `join_does`, `prefix_does`, `map_does`: the operations, for any such `P`.
-/

namespace PiCloud
namespace Durable

open Lib

variable {S D : Type}

abbrev RangeTree (S : Type) := LeafTree (HistoryRange S)

/-- The summary of a node is that of the tree. -/
structure Summarizes (n : DraftNode S D) (t : RangeTree S) : Prop where
  height : n.height = t.height
  minId : n.minId = t.fold (·.minId) min
  maxId : n.maxId = t.fold (·.maxId) max
  count : n.count = t.fold (·.count) (· + ·)

/-- A node stands for a tree; its children are nodes with `P`. -/
def Built (P : HistoryNode S D → Prop) (n : HistoryNode S D) : RangeTree S → Prop
  | .leaf r => n.kind = .range r ∧ Directory.validRange r = true ∧ Summarizes n.toDraftNode (.leaf r)
  | .node l r => ∃ a b, n.kind = .branch a.id b.id a.digest b.digest ∧
      Summarizes n.toDraftNode (.node l r) ∧ P a ∧ P b ∧ Built P a l ∧ Built P b r

theorem Built.summary {P : HistoryNode S D → Prop} {n : HistoryNode S D} {t : RangeTree S}
    (h : Built P n t) : Summarizes n.toDraftNode t := by
  cases t with
  | leaf r => exact h.2.2
  | node l r =>
    obtain ⟨a, b, -, hs, -⟩ := h
    exact hs

theorem Built.valid {P : HistoryNode S D → Prop} {n : HistoryNode S D} {t : RangeTree S}
    (h : Built P n t) : ∀ r ∈ t.leaves, Directory.validRange r = true := by
  induction t generalizing n with
  | leaf r =>
    intro r' hr
    rw [List.mem_singleton.mp hr]
    exact h.2.1
  | node l r ihl ihr =>
    obtain ⟨a, b, -, -, -, -, hl, hr⟩ := h
    intro r' hr'
    rcases List.mem_append.mp hr' with hm | hm
    · exact ihl hl r' hm
    · exact ihr hr r' hm

theorem Built.imp {P Q : HistoryNode S D → Prop} (hpq : ∀ a, P a → Q a) {n : HistoryNode S D}
    {t : RangeTree S} (h : Built P n t) : Built Q n t := by
  induction t generalizing n with
  | leaf r => exact h
  | node l r ihl ihr =>
    obtain ⟨a, b, hk, hs, ha, hb, hl, hr⟩ := h
    exact ⟨a, b, hk, hs, hpq a ha, hpq b hb, ihl hl, ihr hr⟩

/-- Where `P` leaves no two nodes of one identity and digest, a node stands for one tree only. -/
theorem Built.unique {P : HistoryNode S D → Prop}
    (hp : ∀ a b, P a → P b → a.id = b.id → a.digest = b.digest → a = b) {n : HistoryNode S D}
    {t u : RangeTree S} (ht : Built P n t) (hu : Built P n u) : t = u := by
  induction t generalizing n u with
  | leaf r =>
    cases u with
    | leaf r' =>
      have := ht.1.symm.trans hu.1
      cases this
      rfl
    | node l' r' =>
      obtain ⟨a, b, hk, -⟩ := hu
      have := ht.1.symm.trans hk
      cases this
  | node l r ihl ihr =>
    obtain ⟨a, b, hk, -, ha, hb, hl, hr⟩ := ht
    cases u with
    | leaf r' =>
      have := hk.symm.trans hu.1
      cases this
    | node l' r' =>
      obtain ⟨a', b', hk', -, ha', hb', hl', hr'⟩ := hu
      have hkinds := hk.symm.trans hk'
      injection hkinds with h1 h2 h3 h4
      obtain rfl := hp a a' ha ha' h1 h3
      obtain rfl := hp b b' hb hb' h2 h4
      rw [ihl hl hl', ihr hr hr']

namespace Directory

variable {hash : Nat → DraftNode S D → D}

def Names (s : Directory hash) (id : Nat) (digest : D) : Prop :=
  ∃ a, s.cache id = some a ∧ a.digest = digest

def Linked (s : Directory hash) (n : HistoryNode S D) : Prop :=
  ∀ l r dl dr, n.kind = .branch l r dl dr →
    (Names s l dl ∧ l < n.id) ∧ (Names s r dr ∧ r < n.id)

/-- What an operation does to the directory it runs in. -/
structure Grows (s s' : Directory hash) : Prop where
  cache : ∀ {id n}, s.cache id = some n → s'.cache id = some n
  store : s'.store = s.store
  next : s.next ≤ s'.next
  old : ∀ {id n}, s'.cache id = some n → id < s.next → s.cache id = some n ∨ s.store id = some n
  made : ∀ {id n}, s'.created id = some n → s.created id = some n ∨ Linked s' n

theorem Linked.mono {s s' : Directory hash} {n : HistoryNode S D}
    (hc : ∀ {id m}, s.cache id = some m → s'.cache id = some m) (h : Linked s n) :
    Linked s' n := by
  intro l r dl dr hk
  obtain ⟨⟨⟨a, ha, hda⟩, hl⟩, ⟨b, hb, hdb⟩, hr⟩ := h l r dl dr hk
  exact ⟨⟨⟨a, hc ha, hda⟩, hl⟩, ⟨b, hc hb, hdb⟩, hr⟩

theorem Grows.refl (s : Directory hash) : Grows s s where
  cache h := h
  store := rfl
  next := Nat.le_refl _
  old h _ := .inl h
  made h := .inl h

theorem Grows.trans {s s' s'' : Directory hash} (h : Grows s s') (h' : Grows s' s'') :
    Grows s s'' where
  cache hc := h'.cache (h.cache hc)
  store := h'.store.trans h.store
  next := Nat.le_trans h.next h'.next
  old hc hid := by
    rcases h'.old hc (Nat.lt_of_lt_of_le hid h.next) with ho | ho
    · exact h.old ho hid
    · exact .inr (h.store ▸ ho)
  made hm := by
    rcases h'.made hm with hm | hm
    · rcases h.made hm with hm | hm
      · exact .inl hm
      · exact .inr (hm.mono h'.cache)
    · exact .inr hm

/-- The program returns with `Q` or throws an error that `fails` allows; the directory grows. -/
def Does (fails : String → Prop) {α : Type} (x : Op hash α) (s : Directory hash)
    (Q : α → Directory hash → Prop) : Prop :=
  Ends x s (fun a s' => Grows s s' ∧ Q a s') (fun e s' => Grows s s' ∧ fails e)

variable {fails : String → Prop} {α β : Type}

theorem Does.bind {x : Op hash α} {f : α → Op hash β} {s : Directory hash}
    {Q : α → Directory hash → Prop} {Q' : β → Directory hash → Prop} (hx : Does fails x s Q)
    (hf : ∀ a s', Grows s s' → Q a s' → Does fails (f a) s' Q') : Does fails (x >>= f) s Q' := by
  refine Ends.bind (Ends.imp hx (fun a s' h => h) (fun e s' h => h)) ?_
  intro a s' h
  refine Ends.imp (hf a s' h.1 h.2) ?_ ?_
  · intro b s'' hb
    exact ⟨h.1.trans hb.1, hb.2⟩
  · intro e s'' he
    exact ⟨h.1.trans he.1, he.2⟩

theorem Does.pure {a : α} {s : Directory hash} {Q : α → Directory hash → Prop} (h : Q a s) :
    Does fails (pure a) s Q := ⟨Grows.refl s, h⟩

theorem Does.throw {e : String} {s : Directory hash} {Q : α → Directory hash → Prop}
    (h : fails e) : Does fails (throw e : Op hash α) s Q := ⟨Grows.refl s, h⟩

theorem Does.imp {x : Op hash α} {s : Directory hash} {Q Q' : α → Directory hash → Prop}
    (h : Does fails x s Q) (hq : ∀ a s', Grows s s' → Q a s' → Q' a s') : Does fails x s Q' :=
  Ends.imp h (fun a s' ha => ⟨ha.1, hq a s' ha.1 ha.2⟩) (fun _ _ he => he)

theorem grows_remember {s : Directory hash} {n : HistoryNode S D}
    (hn : n.digest = hash n.id n.toDraftNode) (hs : s.store n.id = some n)
    (hc : s.cache n.id = none) : Grows s (s.remember n hn hs) where
  cache := by
    intro id m h
    have hid : id ≠ n.id := by
      rintro rfl
      rw [hc] at h
      cases h
    simpa [remember, Function.update_of_ne hid] using h
  store := rfl
  next := Nat.le_refl _
  old := by
    intro id m h hid
    by_cases heq : id = n.id
    · subst heq
      simp only [remember, Function.update_self] at h
      cases h
      exact .inr hs
    · simp only [remember, Function.update_of_ne heq] at h
      exact .inl h
  made h := .inl h

def Draws (s : Directory hash) (value : DraftNode S D) : Prop :=
  ∀ l r dl dr, value.kind = .branch l r dl dr → Names s l dl ∧ Names s r dr

theorem cache_adopt {s : Directory hash} {value : DraftNode S D} {id : Nat}
    {n : HistoryNode S D} (h : s.cache id = some n) : (s.adopt value).cache id = some n := by
  have hid : id ≠ s.next := by
    rintro rfl
    rw [s.cache_next] at h
    cases h
  simpa [adopt, Function.update_of_ne hid] using h

theorem grows_adopt {s : Directory hash} {value : DraftNode S D} (hd : Draws s value) :
    Grows s (s.adopt value) where
  cache h := cache_adopt h
  store := rfl
  next := Nat.le_succ _
  old := by
    intro id m h hid
    have hne : id ≠ s.next := Nat.ne_of_lt hid
    simp only [adopt, Function.update_of_ne hne] at h
    exact .inl h
  made := by
    intro id m h
    by_cases hid : id = s.next
    · subst hid
      simp only [adopt, Function.update_self] at h
      cases h
      right
      intro l r dl dr hk
      obtain ⟨⟨a, ha, hda⟩, b, hb, hdb⟩ := hd l r dl dr hk
      exact ⟨⟨⟨a, cache_adopt ha, hda⟩, (s.cached ha).2.2⟩, ⟨b, cache_adopt hb, hdb⟩,
        (s.cached hb).2.2⟩
    · simp only [adopt, Function.update_of_ne hid] at h
      exact .inl h

theorem create_does {s : Directory hash} {value : DraftNode S D} (hd : Draws s value) :
    Does fails (create value) s fun n s' => s'.cache n.id = some n ∧ n.toDraftNode = value := by
  refine ⟨grows_adopt hd, ?_, rfl⟩
  simp [adopt, draftOf]

variable [DecidableEq D]

theorem read_cases (s : Directory hash) (id : Nat) :
    (∃ n, s.cache id = some n ∧ (read id).run s = (.ok n, s)) ∨
    (∃ n, s.cache id = none ∧ n.id = id ∧ ∃ hn hs,
      (read id).run s = (.ok n, s.remember n hn hs)) ∨
    (s.cache id = none ∧ (∀ n, s.store id = some n → ¬(n.id = id ∧
        n.digest = hash n.id n.toDraftNode)) ∧
      (read id).run s = (.error "Retained history directory integrity check failed", s)) := by
  unfold Program.run read
  cases hc : s.cache id with
  | some n => exact .inl ⟨n, rfl, rfl⟩
  | none =>
    right
    simp only [true_and]
    split
    · rename_i n hs
      by_cases hn : n.id = id ∧ n.digest = hash n.id n.toDraftNode
      · left
        simp only [dif_pos hn]
        exact ⟨n, hn.1, hn.2, by rw [hn.1]; exact hs, rfl⟩
      · right
        simp only [dif_neg hn, and_true]
        intro m hm
        rw [hs] at hm
        cases hm
        exact hn
    · rename_i hs
      right
      simp [hs]

theorem read_does (s : Directory hash) (id : Nat)
    (hfails : s.cache id = none → (∀ n, s.store id = some n → ¬(n.id = id ∧
      n.digest = hash n.id n.toDraftNode)) →
      fails "Retained history directory integrity check failed") :
    Does fails (read id) s fun n s' => s'.cache n.id = some n ∧ n.id = id ∧
      (s.cache id = some n ∨ s.cache id = none ∧ s.store id = some n) := by
  unfold Does Ends
  rcases read_cases s id with ⟨n, hc, hr⟩ | ⟨n, hc, rfl, hn, hs, hr⟩ | ⟨hc, hno, hr⟩
  · rw [hr]
    obtain ⟨rfl, -⟩ := s.cached hc
    exact ⟨Grows.refl s, hc, rfl, .inl hc⟩
  · rw [hr]
    exact ⟨grows_remember hn hs hc, by simp [remember], rfl, .inr ⟨hc, hs⟩⟩
  · rw [hr]
    exact ⟨Grows.refl s, hfails hc hno⟩

/-! ## Nodes that stand for trees -/

/-- The nodes that `P` vouches for can be read back, or `fails` allows the error. -/
structure Trust (P : Directory hash → HistoryNode S D → Prop) (fails : String → Prop) : Prop where
  grows : ∀ {s s' a}, Grows s s' → P s a → P s' a
  cached : ∀ {s a}, s.cache a.id = some a → P s a
  unique : ∀ {s a b}, P s a → P s b → a.id = b.id → a.digest = b.digest → a = b
  read : ∀ {s a}, P s a → Does fails (read a.id) s fun m s' => s'.cache m.id = some m ∧
    (m = a ∨ m.digest ≠ a.digest ∧ fails "Retained history directory branch changed")

structure Holds (P : Directory hash → HistoryNode S D → Prop) (s : Directory hash)
    (n : HistoryNode S D) (t : RangeTree S) : Prop where
  known : s.cache n.id = some n
  built : Built (P s) n t

variable {P : Directory hash → HistoryNode S D → Prop}

theorem Holds.grows (T : Trust P fails) {s s' : Directory hash} {n : HistoryNode S D}
    {t : RangeTree S} (h : Holds P s n t) (hg : Grows s s') : Holds P s' n t where
  known := hg.cache h.known
  built := h.built.imp fun _ ha => T.grows hg ha

theorem Holds.unique (T : Trust P fails) {s : Directory hash} {n m : HistoryNode S D}
    {t u : RangeTree S} (ht : Holds P s n t) (hu : Holds P s m u) (hid : n.id = m.id) : t = u := by
  have hm : some n = some m := by rw [← ht.known, hid, hu.known]
  cases hm
  exact Built.unique (fun a b => T.unique) ht.built hu.built

theorem children_does (T : Trust P fails) {s : Directory hash} {n : HistoryNode S D}
    {l r : RangeTree S} (h : Holds P s n (.node l r)) :
    Does fails (children n) s fun p s' => Holds P s' p.1 l ∧ Holds P s' p.2 r := by
  obtain ⟨a, b, hk, hs, ha, hb, hl, hr⟩ := h.built
  simp only [children, hk]
  refine Does.bind (T.read ha) fun a' s₁ g₁ hread₁ => ?_
  refine Does.bind (T.read (T.grows g₁ hb)) fun b' s₂ g₂ hread₂ => ?_
  split
  · rename_i hchecks
    obtain ⟨ha', hfa⟩ := hread₁
    obtain ⟨hb', hfb⟩ := hread₂
    rcases hfa with rfl | hfa
    · rcases hfb with rfl | hfb
      · refine Does.pure ⟨⟨g₂.cache ha', ?_⟩, ⟨hb', ?_⟩⟩
        · exact hl.imp fun _ hp => T.grows (g₁.trans g₂) hp
        · exact hr.imp fun _ hp => T.grows (g₁.trans g₂) hp
      · exact absurd hchecks.2.1 hfb.1
    · exact absurd hchecks.1 hfa.1
  · rename_i hchecks
    refine Does.throw ?_
    rcases hread₁.2 with rfl | hfa
    · rcases hread₂.2 with rfl | hfb
      · refine absurd ⟨rfl, rfl, ?_⟩ hchecks
        have hsl := hl.summary
        have hsr := hr.summary
        simp only [hs.height, hs.count, hs.minId, hs.maxId, hsl.height, hsl.count, hsl.minId,
          hsl.maxId, hsr.height, hsr.count, hsr.minId, hsr.maxId, LeafTree.height, LeafTree.fold,
          and_self]
      · exact hfb.2
    · exact hfa.2

omit [DecidableEq D] in
theorem draws_pair {s : Directory hash} {a b : HistoryNode S D} (ha : s.cache a.id = some a)
    (hb : s.cache b.id = some b) {minId maxId count : Int} {height : Nat} :
    Draws s { minId, maxId, count, height, kind := .branch a.id b.id a.digest b.digest } := by
  intro l r dl dr hk
  cases hk
  exact ⟨⟨a, ha, rfl⟩, b, hb, rfl⟩

theorem pair_does (T : Trust P fails) {s : Directory hash} {a b : HistoryNode S D}
    {l r : RangeTree S} (ha : Holds P s a l) (hb : Holds P s b r) :
    Does fails (pair a b) s fun n s' => Holds P s' n (.node l r) := by
  refine Does.imp (create_does (draws_pair ha.known hb.known)) ?_
  intro n s' hg h
  obtain ⟨hn, hv⟩ := h
  have hsa := ha.built.summary
  have hsb := hb.built.summary
  refine ⟨hn, a, b, by rw [hv], ?_, T.cached (hg.cache ha.known), T.cached (hg.cache hb.known),
    (ha.grows T hg).built, (hb.grows T hg).built⟩
  rw [hv]
  constructor
  · simp [LeafTree.height, hsa.height, hsb.height]
  · simp [LeafTree.fold, hsa.minId, hsb.minId]
  · simp [LeafTree.fold, hsa.maxId, hsb.maxId]
  · simp [LeafTree.fold, hsa.count, hsb.count]

omit [DecidableEq D] in
theorem range_does {s : Directory hash} {r : HistoryRange S} (hr : validRange r = true) :
    Does fails (range r) s fun n s' => Holds P s' n (.leaf r) := by
  simp only [range, hr, if_true]
  refine Does.imp (create_does (fun _ _ _ _ hk => by cases hk)) ?_
  rintro n s' - ⟨hn, hv⟩
  refine ⟨hn, by rw [hv], hr, ?_⟩
  rw [hv]
  exact ⟨rfl, rfl, rfl, rfl⟩

omit [DecidableEq D] in
theorem Holds.height {s : Directory hash} {n : HistoryNode S D} {t : RangeTree S}
    (h : Holds P s n t) : n.height = t.height := h.built.summary.height

theorem balance_does (T : Trust P fails) {s : Directory hash} {m n : HistoryNode S D}
    {l r : RangeTree S} (hm : Holds P s m l) (hn : Holds P s n r) :
    Does fails (balance m n) s fun k s' => Holds P s' k (LeafTree.balance l r) := by
  unfold balance LeafTree.balance
  rw [hm.height, hn.height]
  by_cases h1 : l.height > r.height + 1
  · rw [if_pos h1, if_pos h1]
    cases l with
    | leaf a => simp only [LeafTree.height] at h1; omega
    | node a b =>
      refine Does.bind (children_does T hm) ?_
      rintro ⟨x, y⟩ s₁ g₁ ⟨hx, hy⟩
      simp only at hx hy ⊢
      rw [hx.height, hy.height]
      by_cases h2 : a.height ≥ b.height
      · rw [if_pos h2, if_pos h2]
        refine Does.bind (pair_does T hy (hn.grows T g₁)) fun z s₂ g₂ hz => ?_
        exact pair_does T (hx.grows T g₂) hz
      · rw [if_neg h2, if_neg h2]
        cases b with
        | leaf b =>
          have := a.height_pos
          simp only [LeafTree.height] at h2
          omega
        | node c d =>
          refine Does.bind (children_does T hy) ?_
          rintro ⟨u, v⟩ s₂ g₂ ⟨hu, hv⟩
          refine Does.bind (pair_does T (hx.grows T g₂) hu) fun z s₃ g₃ hz => ?_
          refine Does.bind (pair_does T (hv.grows T g₃) (hn.grows T (g₁.trans (g₂.trans g₃))))
            fun w s₄ g₄ hw => ?_
          exact pair_does T (hz.grows T g₄) hw
  · rw [if_neg h1, if_neg h1]
    by_cases h2 : r.height > l.height + 1
    · rw [if_pos h2, if_pos h2]
      cases r with
      | leaf a => simp only [LeafTree.height] at h2; omega
      | node a b =>
        refine Does.bind (children_does T hn) ?_
        rintro ⟨x, y⟩ s₁ g₁ ⟨hx, hy⟩
        simp only at hx hy ⊢
        rw [hx.height, hy.height]
        by_cases h3 : b.height ≥ a.height
        · rw [if_pos h3, if_pos h3]
          refine Does.bind (pair_does T (hm.grows T g₁) hx) fun z s₂ g₂ hz => ?_
          exact pair_does T hz (hy.grows T g₂)
        · rw [if_neg h3, if_neg h3]
          cases a with
          | leaf a =>
            have := b.height_pos
            simp only [LeafTree.height] at h3
            omega
          | node c d =>
            refine Does.bind (children_does T hx) ?_
            rintro ⟨u, v⟩ s₂ g₂ ⟨hu, hv⟩
            refine Does.bind (pair_does T (hm.grows T (g₁.trans g₂)) hu) fun z s₃ g₃ hz => ?_
            refine Does.bind (pair_does T (hv.grows T g₃) (hy.grows T (g₂.trans g₃)))
              fun w s₄ g₄ hw => ?_
            exact pair_does T (hz.grows T g₄) hw
    · rw [if_neg h2, if_neg h2]
      exact pair_does T hm hn

theorem joinWithin_does (T : Trust P fails) (fuel : Nat) {s : Directory hash}
    {m n : HistoryNode S D} {l r : RangeTree S} (hm : Holds P s m l) (hn : Holds P s n r)
    (hfuel : l.height + r.height ≤ fuel) :
    Does fails (joinWithin fuel m n) s fun k s' => Holds P s' k (LeafTree.join l r) := by
  induction fuel generalizing s m n l r with
  | zero =>
    have := l.height_pos
    omega
  | succ fuel ih =>
    have hlp := l.height_pos
    have hrp := r.height_pos
    unfold joinWithin
    rw [hm.height, hn.height, LeafTree.join_eq]
    by_cases h1 : l.height > r.height + 1
    · rw [if_pos h1, if_pos h1]
      cases l with
      | leaf a => simp only [LeafTree.height] at h1; omega
      | node a b =>
        refine Does.bind (children_does T hm) ?_
        rintro ⟨x, y⟩ s₁ g₁ ⟨hx, hy⟩
        simp only [LeafTree.height] at hfuel
        refine Does.bind (ih hy (hn.grows T g₁) (by omega)) fun z s₂ g₂ hz => ?_
        exact balance_does T (hx.grows T g₂) hz
    · rw [if_neg h1, if_neg h1]
      by_cases h2 : r.height > l.height + 1
      · rw [if_pos h2, if_pos h2]
        cases r with
        | leaf a => simp only [LeafTree.height] at h2; omega
        | node a b =>
          refine Does.bind (children_does T hn) ?_
          rintro ⟨x, y⟩ s₁ g₁ ⟨hx, hy⟩
          simp only [LeafTree.height] at hfuel
          refine Does.bind (ih (hm.grows T g₁) hx (by omega)) fun z s₂ g₂ hz => ?_
          exact balance_does T hz (hy.grows T g₂)
      · rw [if_neg h2, if_neg h2]
        exact pair_does T hm hn

/-- A node for a sequence of ranges, none where it is empty. -/
inductive Lists (P : Directory hash → HistoryNode S D → Prop) (s : Directory hash)
    (balanced : Prop) : Option (HistoryNode S D) → List (HistoryRange S) → Prop where
  | none : Lists P s balanced none []
  | some {n t} (holds : Holds P s n t) (bal : balanced → t.Balanced) :
      Lists P s balanced (some n) t.leaves

theorem join_does (T : Trust P fails) {s : Directory hash} {m n : Option (HistoryNode S D)}
    {xs ys : List (HistoryRange S)} {balanced : Prop} (hm : Lists P s balanced m xs)
    (hn : Lists P s balanced n ys) :
    Does fails (join m n) s fun k s' => Lists P s' balanced k (xs ++ ys) := by
  cases hm with
  | none => exact Does.pure hn
  | some hl hlb =>
    cases hn with
    | none =>
      rw [List.append_nil]
      exact Does.pure (.some hl hlb)
    | some hr hrb =>
      simp only [join]
      rw [hl.height, hr.height]
      refine Does.bind (joinWithin_does T _ hl hr (Nat.le_refl _)) fun k s' g hk => ?_
      rw [← LeafTree.leaves_join]
      exact Does.pure (.some hk fun hb => (LeafTree.join_fits (hlb hb) (hrb hb)).1)

theorem Lists.grows (T : Trust P fails) {s s' : Directory hash} {n : Option (HistoryNode S D)}
    {xs : List (HistoryRange S)} {balanced : Prop} (h : Lists P s balanced n xs)
    (hg : Grows s s') : Lists P s' balanced n xs := by
  cases h with
  | none => exact .none
  | some holds bal => exact .some (holds.grows T hg) bal

omit [DecidableEq D] in
theorem Lists.imp {s : Directory hash} {n : Option (HistoryNode S D)} {xs : List (HistoryRange S)}
    {b b' : Prop} (h : Lists P s b n xs) (hb : b' → b) : Lists P s b' n xs := by
  cases h with
  | none => exact .none
  | some holds bal => exact .some holds fun h => bal (hb h)

/-! ## Clipping and selecting -/

/-- A leaf at a bound. -/
def clipLeaf (clip : HistoryRange S → Int → Option (HistoryRange S)) (maximumId : Int)
    (r : HistoryRange S) : Option (HistoryRange S) :=
  if maximumId < r.minId then none
  else if r.maxId ≤ maximumId then some r
  else clip r maximumId

theorem validRange_le {r : HistoryRange S} (h : validRange r = true) : r.minId ≤ r.maxId := by
  simp only [validRange, Bool.and_eq_true, decide_eq_true_eq] at h
  exact h.1.1.1.2

theorem fold_min_le {t : RangeTree S} {r : HistoryRange S} (h : r ∈ t.leaves) :
    t.fold (·.minId) min ≤ r.minId := by
  induction t with
  | leaf a =>
    simp only [LeafTree.leaves, List.mem_singleton] at h
    rw [h]
    exact Int.le_refl _
  | node l r' ihl ihr =>
    simp only [LeafTree.leaves, List.mem_append] at h
    simp only [LeafTree.fold]
    rcases h with h | h
    · have := ihl h
      omega
    · have := ihr h
      omega

theorem le_fold_max {t : RangeTree S} {r : HistoryRange S} (h : r ∈ t.leaves) :
    r.maxId ≤ t.fold (·.maxId) max := by
  induction t with
  | leaf a =>
    simp only [LeafTree.leaves, List.mem_singleton] at h
    rw [h]
    exact Int.le_refl _
  | node l r' ihl ihr =>
    simp only [LeafTree.leaves, List.mem_append] at h
    simp only [LeafTree.fold]
    rcases h with h | h
    · have := ihl h
      omega
    · have := ihr h
      omega

variable [DecidableEq S]

/-- What clipping gives for a leaf that reaches over the bound is let through, or `fails` allows
the errors. -/
def ClipsWell (clip : HistoryRange S → Int → Option (HistoryRange S)) (fails : String → Prop)
    (maximumId : Int) (r : HistoryRange S) : Prop :=
  ∀ r', r.minId ≤ maximumId → maximumId < r.maxId → clip r maximumId = some r' →
    ¬clipEscapes r' r r.count maximumId ∧ validRange r' = true ∨ ∀ e, fails e

theorem prefixWithin_does (T : Trust P fails)
    {clip : HistoryRange S → Int → Option (HistoryRange S)} {maximumId : Int} (fuel : Nat)
    {s : Directory hash} {n : HistoryNode S D} {t : RangeTree S} (h : Holds P s n t)
    (hfuel : t.height ≤ fuel) (hclip : ∀ r ∈ t.leaves, ClipsWell clip fails maximumId r) :
    Does fails (prefixWithin clip maximumId fuel n) s fun k s' =>
      Lists P s' t.Balanced k (t.leaves.filterMap (clipLeaf clip maximumId)) := by
  induction fuel generalizing s n t with
  | zero =>
    have := t.height_pos
    omega
  | succ fuel ih =>
    have hsum := h.built.summary
    unfold prefixWithin
    rw [hsum.minId, hsum.maxId]
    by_cases h1 : maximumId < t.fold (·.minId) min
    · rw [if_pos h1]
      have hnone : t.leaves.filterMap (clipLeaf clip maximumId) = [] := by
        rw [List.filterMap_eq_nil_iff]
        intro r hr
        have := fold_min_le hr
        rw [clipLeaf, if_pos (by omega)]
      rw [hnone]
      exact Does.pure .none
    · rw [if_neg h1]
      by_cases h2 : t.fold (·.maxId) max ≤ maximumId
      · rw [if_pos h2]
        have hall : t.leaves.filterMap (clipLeaf clip maximumId) = t.leaves := by
          rw [← List.filterMap_some (l := t.leaves), List.filterMap_filterMap]
          refine List.filterMap_congr fun r hr => ?_
          have hmax := le_fold_max hr
          have hmin := validRange_le (h.built.valid r hr)
          simp only [Option.bind_some]
          rw [clipLeaf, if_neg (by omega), if_pos (by omega)]
        rw [hall]
        exact Does.pure (.some h id)
      · rw [if_neg h2]
        cases t with
        | leaf r =>
          simp only [LeafTree.fold] at h1 h2
          have hleaf : clipLeaf clip maximumId r = clip r maximumId := by
            rw [clipLeaf, if_neg h1, if_neg h2]
          rw [h.built.1]
          simp only [LeafTree.leaves, List.filterMap_cons, List.filterMap_nil, hleaf]
          cases hc : clip r maximumId with
          | none => exact Does.pure .none
          | some r' =>
            have hok := hclip r List.mem_cons_self r' (by omega) (by omega) hc
            simp only
            split
            · rename_i hesc
              refine Does.throw ?_
              rcases hok with hok | hok
              · rw [hsum.count] at hesc
                exact absurd hesc hok.1
              · exact hok _
            · by_cases hv : validRange r' = true
              · refine Does.bind (range_does (P := P) hv) fun k s' g hk => ?_
                exact Does.pure (.some hk fun _ => trivial)
              · rcases hok with hok | hok
                · exact absurd hok.2 hv
                · simp only [range, if_neg hv]
                  exact Does.throw (hok _)
        | node l r =>
          obtain ⟨a, b, hk, -⟩ := h.built
          rw [hk]
          simp only
          simp only [LeafTree.leaves, List.mem_append] at hclip
          simp only [LeafTree.height] at hfuel
          refine Does.bind (children_does T h) ?_
          rintro ⟨x, y⟩ s₁ g₁ ⟨hx, hy⟩
          refine Does.bind (ih hx (by omega) fun r hr => hclip r (.inl hr)) fun u s₂ g₂ hu => ?_
          refine Does.bind (ih (hy.grows T g₂) (by omega) fun r hr => hclip r (.inr hr))
            fun v s₃ g₃ hv => ?_
          rw [LeafTree.leaves, List.filterMap_append]
          refine join_does T ((hu.imp ?_).grows T g₃) (hv.imp ?_)
          · exact fun hb => hb.2.2.1
          · exact fun hb => hb.2.2.2

/-- A leaf under a selection. -/
def selectLeaf (select : HistoryRange S → Selected S) (r : HistoryRange S) :
    Option (HistoryRange S) :=
  match select r with
  | .keep => some r
  | .change r' => some r'
  | .drop => none

omit [DecidableEq S] in
theorem Lists.same (T : Trust P fails) {s : Directory hash} {k : Option (HistoryNode S D)}
    {x : HistoryNode S D} {l : RangeTree S} {xs : List (HistoryRange S)} {balanced : Prop}
    (hk : Lists P s balanced k xs) (hx : Holds P s x l) (hid : k.map (·.id) = Option.some x.id) :
    xs = l.leaves := by
  cases hk with
  | none => cases hid
  | some holds bal =>
    simp only [Option.map_some, Option.some.injEq] at hid
    rw [holds.unique T hx hid]

omit [DecidableEq S] in
theorem mapWithin_does (T : Trust P fails) {select : HistoryRange S → Selected S} (fuel : Nat)
    {s : Directory hash} {n : HistoryNode S D} {t : RangeTree S} (h : Holds P s n t)
    (hfuel : t.height ≤ fuel)
    (hselect : ∀ r ∈ t.leaves, ∀ r', select r = .change r' →
      validRange r' = true ∨ fails "Invalid retained history range") :
    Does fails (mapWithin select fuel n) s fun k s' =>
      Lists P s' t.Balanced k (t.leaves.filterMap (selectLeaf select)) := by
  induction fuel generalizing s n t with
  | zero =>
    have := t.height_pos
    omega
  | succ fuel ih =>
    unfold mapWithin
    cases t with
    | leaf r =>
      rw [h.built.1]
      simp only [LeafTree.leaves, List.filterMap_cons, List.filterMap_nil, selectLeaf]
      cases hs : select r with
      | keep => exact Does.pure (.some h id)
      | change r' =>
        rcases hselect r List.mem_cons_self r' hs with hv | hf
        · refine Does.bind (range_does (P := P) hv) fun k s' g hk => ?_
          exact Does.pure (.some hk fun _ => trivial)
        · by_cases hv : validRange r' = true
          · refine Does.bind (range_does (P := P) hv) fun k s' g hk => ?_
            exact Does.pure (.some hk fun _ => trivial)
          · simp only [range, if_neg hv]
            exact Does.throw hf
      | drop => exact Does.pure .none
    | node l r =>
      obtain ⟨a, b, hk, -⟩ := h.built
      rw [hk]
      simp only [LeafTree.leaves, List.mem_append] at hselect
      simp only [LeafTree.height] at hfuel
      simp only
      refine Does.bind (children_does T h) ?_
      rintro ⟨x, y⟩ s₁ g₁ ⟨hx, hy⟩
      refine Does.bind (ih hx (by omega) fun r hr => hselect r (.inl hr)) fun u s₂ g₂ hu => ?_
      refine Does.bind (ih (hy.grows T g₂) (by omega) fun r hr => hselect r (.inr hr))
        fun v s₃ g₃ hv => ?_
      rw [LeafTree.leaves, List.filterMap_append]
      have hu' := hu.grows T g₃
      split
      · rename_i hsame
        rw [hu'.same T (hx.grows T (g₂.trans g₃)) hsame.1,
          hv.same T (hy.grows T (g₂.trans g₃)) hsame.2]
        exact Does.pure (.some (h.grows T (g₁.trans (g₂.trans g₃))) id)
      · refine join_does T (hu'.imp ?_) (hv.imp ?_)
        · exact fun hb => hb.2.2.1
        · exact fun hb => hb.2.2.2

end Directory
end Durable
end PiCloud
