import PiCloud.Lib.Outcome
import PiCloud.Lib.Record

/-!
# Lib.JsonWalk

Walks over a JSON value: through its arrays, and through the members of its objects except those
whose name is skipped.

* `rebuild`: a copy of the value, in which a program replaces some of the objects.
* `visit`: a state threaded through the objects; the walk may stop at some of them.
* `objects`: the objects that a walk comes to. `visit_eq`: a visit is a fold over these.
* `Rebuilt`: what a rebuilt value is to the value, as a relation.
* `Alike`: equality up to the order of members.
-/

namespace PiCloud
namespace Lib

theorem Json.walk {P : Json → Prop} {Q : List Json → Prop} {R : Members → Prop}
    (null : P .null) (bool : ∀ b, P (.bool b)) (num : ∀ q, P (.num q)) (str : ∀ s, P (.str s))
    (arr : ∀ items, Q items → P (.arr items)) (obj : ∀ m, R m → P (.obj m))
    (none : Q []) (item : ∀ v vs, P v → Q vs → Q (v :: vs))
    (empty : R []) (member : ∀ k v m, P v → R m → R ((k, v) :: m)) : ∀ v, P v :=
  Json.rec (motive_1 := P) (motive_2 := Q) (motive_3 := R) (motive_4 := fun p => P p.2)
    null bool num str (fun items h => arr items h) (fun m h => obj m h)
    none (fun v vs hv hvs => item v vs hv hvs)
    empty (fun p m hp hm => member p.1 p.2 m hp hm) (fun _ _ h => h)

/-! ## Rebuilding -/

section
variable {M : Type → Type} [Monad M] (skips : JsString → Bool) (part : Members → Option (M Json))

mutual

def rebuild : Json → M Json
  | .arr items => do return .arr (← rebuildItems items)
  | .obj m =>
    match part m with
    | some x => x
    | none => do return .obj (← rebuildMembers m)
  | v => return v

def rebuildItems : List Json → M (List Json)
  | [] => return []
  | v :: vs => do
    let w ← rebuild v
    let ws ← rebuildItems vs
    return w :: ws

def rebuildMembers : Members → M Members
  | [] => return []
  | (k, v) :: m => do
    let w ← (if skips k then pure v else rebuild v)
    let n ← rebuildMembers m
    return (k, w) :: n

end

end

/-! ## Visiting -/

section
variable {σ : Type} (skips : JsString → Bool) (stops : Members → Bool)

section
variable (look : Members → σ → Except String σ)

mutual

def visit : Json → σ → Except String σ
  | .arr items, s => visitItems items s
  | .obj m, s => do
    let s ← look m s
    if stops m then return s else visitMembers m s
  | _, s => return s

def visitItems : List Json → σ → Except String σ
  | [], s => return s
  | v :: vs, s => do visitItems vs (← visit v s)

def visitMembers : Members → σ → Except String σ
  | [], s => return s
  | (k, v) :: m, s => do
    let s ← (if skips k then pure s else visit v s)
    visitMembers m s

end

end

mutual

/-- The objects of a value, outer ones first. -/
def objects : Json → List Members
  | .arr items => objectsItems items
  | .obj m => m :: if stops m then [] else objectsMembers m
  | _ => []

def objectsItems : List Json → List Members
  | [] => []
  | v :: vs => objects v ++ objectsItems vs

def objectsMembers : Members → List Members
  | [] => []
  | (k, v) :: m => (if skips k then [] else objects v) ++ objectsMembers m

end

theorem visit_eq (look : Members → σ → Except String σ) : ∀ v s,
    visit skips stops look v s = (objects skips stops v).foldlM (fun s m => look m s) s := by
  refine Json.walk (Q := fun items => ∀ s, visitItems skips stops look items s =
      (objectsItems skips stops items).foldlM (fun s m => look m s) s)
    (R := fun m => ∀ s, visitMembers skips stops look m s =
      (objectsMembers skips stops m).foldlM (fun s m => look m s) s)
    ?null ?bool ?num ?str ?arr ?obj ?none ?item ?empty ?member
  case null | bool | num | str => intros; simp [visit, objects]
  case none | empty => intros; simp [visitItems, objectsItems, visitMembers, objectsMembers]
  case arr =>
    intro items ih s
    simp [visit, objects, ih]
  case obj =>
    intro m ih s
    simp only [visit, objects, List.foldlM_cons]
    congr 1
    funext s'
    by_cases h : stops m = true <;> simp [h, ih]
  case item =>
    intro v vs ihv ihvs s
    simp only [visitItems, objectsItems, List.foldlM_append, ihv]
    congr 1
    funext s'
    exact ihvs s'
  case member =>
    intro k v m ihv ihm s
    simp only [visitMembers, objectsMembers, List.foldlM_append]
    by_cases h : skips k = true
    · simp [h, ihm]
    · simp only [h, Bool.false_eq_true, if_false, ihv]
      congr 1
      funext s'
      exact ihm s'

variable {skips stops}

theorem objects_congr {stops' : Members → Bool} : ∀ v,
    (∀ m ∈ objects skips stops v, stops m = stops' m) →
      objects skips stops' v = objects skips stops v := by
  refine Json.walk (Q := fun items => (∀ m ∈ objectsItems skips stops items, stops m = stops' m) →
      objectsItems skips stops' items = objectsItems skips stops items)
    (R := fun m => (∀ n ∈ objectsMembers skips stops m, stops n = stops' n) →
      objectsMembers skips stops' m = objectsMembers skips stops m)
    ?null ?bool ?num ?str ?arr ?obj ?none ?item ?empty ?member
  case null | bool | num | str => intros; simp [objects]
  case none | empty => intros; simp [objectsItems, objectsMembers]
  case arr =>
    intro items ih h
    simp only [objects] at h ⊢
    exact ih h
  case obj =>
    intro m ih h
    simp only [objects, List.forall_mem_cons] at h ⊢
    rw [← h.1]
    by_cases hm : stops m = true
    · simp [hm]
    · simp only [hm, Bool.false_eq_true, if_false] at h ⊢
      rw [ih h.2]
  case item =>
    intro v vs ihv ihvs h
    simp only [objectsItems, List.forall_mem_append] at h ⊢
    rw [ihv h.1, ihvs h.2]
  case member =>
    intro k v m ihv ihm h
    simp only [objectsMembers, List.forall_mem_append] at h ⊢
    rw [ihm h.2]
    by_cases hk : skips k = true
    · simp [hk]
    · simp only [hk, Bool.false_eq_true, if_false] at h ⊢
      rw [ihv h.1]

end

section
variable {skips : JsString → Bool} {stops : Members → Bool}

theorem objectsMembers_append (m n : Members) :
    objectsMembers skips stops (m ++ n) =
      objectsMembers skips stops m ++ objectsMembers skips stops n := by
  induction m with
  | nil => rfl
  | cons p m ih =>
    obtain ⟨k, v⟩ := p
    simp [objectsMembers, ih]

theorem objects_subset : ∀ v,
    objects skips stops v ⊆ objects (fun _ => false) (fun _ => false) v := by
  refine Json.walk
    (Q := fun items => objectsItems skips stops items ⊆
      objectsItems (fun _ => false) (fun _ => false) items)
    (R := fun m => objectsMembers skips stops m ⊆
      objectsMembers (fun _ => false) (fun _ => false) m)
    ?null ?bool ?num ?str ?arr ?obj ?none ?item ?empty ?member
  case null | bool | num | str => intros; simp [objects]
  case none | empty => simp [objectsItems, objectsMembers]
  case arr => exact fun items ih => ih
  case obj =>
    intro m ih
    by_cases h : stops m = true
    · simp [objects, h]
    · simpa [objects, h] using List.cons_subset_cons m ih
  case item =>
    intro v vs ihv ihvs m hm
    rcases List.mem_append.mp hm with hm | hm
    · exact List.mem_append_left _ (ihv hm)
    · exact List.mem_append_right _ (ihvs hm)
  case member =>
    intro k v m ihv ihm m' hm
    rcases List.mem_append.mp hm with hm | hm
    · by_cases h : skips k = true
      · simp [h] at hm
      · simp only [h, Bool.false_eq_true, if_false] at hm
        exact List.mem_append_left _ (ihv hm)
    · exact List.mem_append_right _ (ihm hm)

end

/-! ## What a rebuilt value is -/

section
variable (skips : JsString → Bool) (stops : Members → Bool) (R : Members → Json → Prop)

mutual

/-- The objects that the walk stops at are replaced by what `R` relates them to. -/
def Rebuilt : Json → Json → Prop
  | .arr items, w => ∃ ws, w = .arr ws ∧ RebuiltItems items ws
  | .obj m, w => if stops m then R m w else ∃ n, w = .obj n ∧ RebuiltMembers m n
  | v, w => w = v

def RebuiltItems : List Json → List Json → Prop
  | [], ws => ws = []
  | v :: vs, ws => ∃ w ws', ws = w :: ws' ∧ Rebuilt v w ∧ RebuiltItems vs ws'

def RebuiltMembers : Members → Members → Prop
  | [], n => n = []
  | (k, v) :: m, n => ∃ w n', n = (k, w) :: n' ∧ (if skips k then w = v else Rebuilt v w) ∧
      RebuiltMembers m n'

end

end

section
variable {skips : JsString → Bool} {stops : Members → Bool} {R : Members → Json → Prop}

theorem Rebuilt.mono {R' : Members → Json → Prop} (h : ∀ m w, R m w → R' m w) : ∀ v w,
    Rebuilt skips stops R v w → Rebuilt skips stops R' v w := by
  refine Json.walk (Q := fun items => ∀ ws, RebuiltItems skips stops R items ws →
      RebuiltItems skips stops R' items ws)
    (R := fun m => ∀ n, RebuiltMembers skips stops R m n → RebuiltMembers skips stops R' m n)
    ?null ?bool ?num ?str ?arr ?obj ?none ?item ?empty ?member
  case null | bool | num | str => intros; simpa [Rebuilt] using ‹_›
  case none | empty => intros; simpa [RebuiltItems, RebuiltMembers] using ‹_›
  case arr =>
    rintro items ih w ⟨ws, rfl, hws⟩
    exact ⟨ws, rfl, ih ws hws⟩
  case obj =>
    intro m ih w hw
    simp only [Rebuilt] at hw ⊢
    by_cases hm : stops m = true
    · simp only [hm, if_true] at hw ⊢
      exact h m w hw
    · simp only [hm, Bool.false_eq_true, if_false] at hw ⊢
      obtain ⟨n, rfl, hn⟩ := hw
      exact ⟨n, rfl, ih n hn⟩
  case item =>
    rintro v vs ihv ihvs ws ⟨w, ws', rfl, hw, hws⟩
    exact ⟨w, ws', rfl, ihv w hw, ihvs ws' hws⟩
  case member =>
    rintro k v m ihv ihm n ⟨w, n', rfl, hw, hn⟩
    refine ⟨w, n', rfl, ?_, ihm n' hn⟩
    by_cases hk : skips k = true
    · simpa only [hk, if_true] using hw
    · simp only [hk, Bool.false_eq_true, if_false] at hw ⊢
      exact ihv w hw

theorem Rebuilt.at : ∀ v w, Rebuilt skips stops R v w →
    ∀ m ∈ objects skips stops v, stops m = true → ∃ w', R m w' := by
  refine Json.walk
    (Q := fun items => ∀ ws, RebuiltItems skips stops R items ws →
      ∀ m ∈ objectsItems skips stops items, stops m = true → ∃ w', R m w')
    (R := fun m => ∀ n, RebuiltMembers skips stops R m n →
      ∀ m' ∈ objectsMembers skips stops m, stops m' = true → ∃ w', R m' w')
    ?null ?bool ?num ?str ?arr ?obj ?none ?item ?empty ?member
  case null | bool | num | str => intros; simp [objects] at *
  case none | empty => intros; simp [objectsItems, objectsMembers] at *
  case arr =>
    rintro items ih w ⟨ws, -, hws⟩
    exact ih ws hws
  case obj =>
    intro m ih w hw
    simp only [Rebuilt, objects, List.forall_mem_cons] at hw ⊢
    by_cases hm : stops m = true
    · simp only [hm, if_true] at hw ⊢
      exact ⟨fun _ => ⟨w, hw⟩, by simp⟩
    · simp only [hm, Bool.false_eq_true, if_false] at hw ⊢
      obtain ⟨n, -, hn⟩ := hw
      exact ⟨False.elim, ih n hn⟩
  case item =>
    rintro v vs ihv ihvs ws ⟨w, ws', -, hw, hws⟩
    simp only [objectsItems, List.forall_mem_append]
    exact ⟨ihv w hw, ihvs ws' hws⟩
  case member =>
    rintro k v m ihv ihm n ⟨w, n', -, hw, hn⟩
    simp only [objectsMembers, List.forall_mem_append]
    refine ⟨?_, ihm n' hn⟩
    by_cases hk : skips k = true
    · simp [hk]
    · simp only [hk, Bool.false_eq_true, if_false] at hw ⊢
      exact ihv w hw

theorem RebuiltMembers.get {m n : Members} (h : RebuiltMembers skips stops R m n)
    (name : String) :
    (m.get name = none ∧ n.get name = none) ∨
    ∃ v w, m.get name = some v ∧ n.get name = some w ∧
      if skips (ascii name) then w = v else Rebuilt skips stops R v w := by
  induction m generalizing n with
  | nil =>
    simp only [RebuiltMembers] at h
    subst h
    exact .inl ⟨rfl, rfl⟩
  | cons p m ih =>
    obtain ⟨k, v⟩ := p
    obtain ⟨w, n', rfl, hw, hn⟩ := h
    by_cases hk : ascii name = k
    · subst hk
      right
      exact ⟨v, w, by simp [Members.get], by simp [Members.get], hw⟩
    · have hb : (ascii name == k) = false := by simpa using hk
      simp only [Members.get, List.lookup_cons, hb]
      exact ih hn

theorem RebuiltMembers.names {m n : Members} (h : RebuiltMembers skips stops R m n) :
    n.map (·.1) = m.map (·.1) := by
  induction m generalizing n with
  | nil =>
    simp only [RebuiltMembers] at h
    rw [h]
  | cons p m ih =>
    obtain ⟨k, v⟩ := p
    obtain ⟨w, n', rfl, -, hn⟩ := h
    simp [ih hn]

theorem Rebuilt.comp {stops' : Members → Bool} {R' R'' : Members → Json → Prop} {P : Members → Prop}
    (hstops : ∀ m n, stops m = false → P m → RebuiltMembers skips stops R m n → stops' n = false)
    (hR : ∀ m w x, stops m = true → P m → R m w → Rebuilt skips stops' R' w x → R'' m x) :
    ∀ v w x, (∀ m ∈ objects skips stops v, P m) → Rebuilt skips stops R v w →
      Rebuilt skips stops' R' w x → Rebuilt skips stops R'' v x := by
  refine Json.walk
    (Q := fun items => ∀ ws xs, (∀ m ∈ objectsItems skips stops items, P m) →
      RebuiltItems skips stops R items ws → RebuiltItems skips stops' R' ws xs →
        RebuiltItems skips stops R'' items xs)
    (R := fun m => ∀ n o, (∀ m' ∈ objectsMembers skips stops m, P m') →
      RebuiltMembers skips stops R m n → RebuiltMembers skips stops' R' n o →
        RebuiltMembers skips stops R'' m o)
    ?null ?bool ?num ?str ?arr ?obj ?none ?item ?empty ?member
  case null | bool | num | str =>
    intros
    simp_all only [Rebuilt]
  case none =>
    intro ws xs _ hws hxs
    simp only [RebuiltItems] at hws
    subst hws
    simpa only [RebuiltItems] using hxs
  case empty =>
    intro n o _ hn ho
    simp only [RebuiltMembers] at hn
    subst hn
    simpa only [RebuiltMembers] using ho
  case arr =>
    rintro items ih w x hP ⟨ws, rfl, hws⟩ ⟨xs, rfl, hxs⟩
    exact ⟨xs, rfl, ih ws xs hP hws hxs⟩
  case obj =>
    intro m ih w x hP hw hx
    simp only [Rebuilt, objects, List.forall_mem_cons] at hP hw ⊢
    cases hm : stops m with
    | true =>
      simp only [hm, if_true] at hw ⊢
      exact hR m w x hm hP.1 hw hx
    | false =>
      simp only [hm, Bool.false_eq_true, if_false] at hP hw ⊢
      obtain ⟨n, rfl, hn⟩ := hw
      simp only [Rebuilt, hstops m n hm hP.1 hn, Bool.false_eq_true, if_false] at hx
      obtain ⟨o, rfl, ho⟩ := hx
      exact ⟨o, rfl, ih n o hP.2 hn ho⟩
  case item =>
    rintro v vs ihv ihvs ws xs hP ⟨w, ws', rfl, hw, hws⟩ ⟨x, xs', rfl, hx, hxs⟩
    simp only [objectsItems, List.forall_mem_append] at hP
    exact ⟨x, xs', rfl, ihv w x hP.1 hw hx, ihvs ws' xs' hP.2 hws hxs⟩
  case member =>
    rintro k v m ihv ihm n o hP ⟨w, n', rfl, hw, hn⟩ ⟨x, o', rfl, hx, ho⟩
    simp only [objectsMembers, List.forall_mem_append] at hP
    refine ⟨x, o', rfl, ?_, ihm n' o' hP.2 hn ho⟩
    by_cases hk : skips k = true
    · simp only [hk, if_true] at hw hx ⊢
      rw [hx, hw]
    · simp only [hk, Bool.false_eq_true, if_false] at hP hw hx ⊢
      exact ihv w x hP.1 hw hx

theorem Rebuilt.forall_objects_iff {stops' : Members → Bool} {A B P : Members → Prop}
    (hobj : ∀ m n, stops m = false → P m → RebuiltMembers skips stops R m n →
      stops' n = false ∧ (A n ↔ B m))
    (hR : ∀ m w, stops m = true → P m → R m w → ((∀ n ∈ objects skips stops' w, A n) ↔ B m)) :
    ∀ v w, (∀ m ∈ objects skips stops v, P m) → Rebuilt skips stops R v w →
      ((∀ n ∈ objects skips stops' w, A n) ↔ ∀ m ∈ objects skips stops v, B m) := by
  refine Json.walk
    (Q := fun items => ∀ ws, (∀ m ∈ objectsItems skips stops items, P m) →
      RebuiltItems skips stops R items ws →
        ((∀ n ∈ objectsItems skips stops' ws, A n) ↔ ∀ m ∈ objectsItems skips stops items, B m))
    (R := fun m => ∀ n, (∀ m' ∈ objectsMembers skips stops m, P m') →
      RebuiltMembers skips stops R m n →
        ((∀ n' ∈ objectsMembers skips stops' n, A n') ↔ ∀ m' ∈ objectsMembers skips stops m, B m'))
    ?null ?bool ?num ?str ?arr ?obj ?none ?item ?empty ?member
  case null | bool | num | str => intros; simp_all [objects, Rebuilt]
  case none => intros; simp_all [objectsItems, RebuiltItems]
  case empty => intros; simp_all [objectsMembers, RebuiltMembers]
  case arr =>
    rintro items ih w hP ⟨ws, rfl, hws⟩
    exact ih ws hP hws
  case obj =>
    intro m ih w hP hw
    simp only [Rebuilt, objects, List.forall_mem_cons] at hP hw ⊢
    cases hm : stops m with
    | true =>
      simp only [hm, if_true] at hw ⊢
      simpa using hR m w hm hP.1 hw
    | false =>
      simp only [hm, Bool.false_eq_true, if_false] at hP hw ⊢
      obtain ⟨n, rfl, hn⟩ := hw
      obtain ⟨hstop, hiff⟩ := hobj m n hm hP.1 hn
      simp only [objects, hstop, Bool.false_eq_true, if_false, List.forall_mem_cons]
      rw [hiff, ih n hP.2 hn]
  case item =>
    rintro v vs ihv ihvs ws hP ⟨w, ws', rfl, hw, hws⟩
    simp only [objectsItems, List.forall_mem_append] at hP ⊢
    rw [ihv w hP.1 hw, ihvs ws' hP.2 hws]
  case member =>
    rintro k v m ihv ihm n hP ⟨w, n', rfl, hw, hn⟩
    simp only [objectsMembers, List.forall_mem_append] at hP ⊢
    rw [ihm n' hP.2 hn]
    by_cases hk : skips k = true
    · simp [hk]
    · simp only [hk, Bool.false_eq_true, if_false] at hP hw ⊢
      rw [ihv w hP.1 hw]

theorem RebuiltMembers.isText {m n : Members} (h : RebuiltMembers skips stops R m n)
    (hR : ∀ m w, R m w → ∃ n, w = .obj n) (name text : String) :
    Lib.isText (n.get name) text = Lib.isText (m.get name) text := by
  rcases h.get name with ⟨hm, hn⟩ | ⟨v, w, hm, hn, hw⟩
  · rw [hm, hn]
  · rw [hm, hn]
    split at hw
    · rw [hw]
    · cases v with
      | null | bool | num | str =>
        simp only [Rebuilt] at hw
        rw [hw]
      | arr items =>
        obtain ⟨ws, rfl, -⟩ := hw
        rfl
      | obj m' =>
        simp only [Rebuilt] at hw
        split at hw
        · obtain ⟨n', rfl⟩ := hR _ _ hw
          rfl
        · obtain ⟨n', rfl, -⟩ := hw
          rfl

theorem rebuild_part {M : Type → Type} [Monad M] {part : Members → Option (M Json)} {m : Members}
    {x : M Json} (h : part m = some x) : rebuild skips part (.obj m) = x := by
  unfold rebuild
  split
  · rename_i y hy
    rw [h] at hy
    exact (Option.some.inj hy).symm
  · rename_i hnone
    rw [h] at hnone
    cases hnone

theorem rebuild_obj {M : Type → Type} [Monad M] {part : Members → Option (M Json)} {m : Members}
    (h : part m = none) :
    rebuild skips part (.obj m) = do return .obj (← rebuildMembers skips part m) := by
  unfold rebuild
  split
  · rename_i y hy
    rw [h] at hy
    cases hy
  · rfl

theorem rebuild_ends {σ : Type} {part : Members → Option (Program σ Json)} {I : σ → Prop}
    {G : σ → σ → Prop} {R : σ → Members → Json → Prop} {E : String → σ → Prop}
    (refl : ∀ s, G s s) (trans : ∀ {s s' s''}, G s s' → G s' s'' → G s s'')
    (mono : ∀ {s s' m w}, G s s' → R s m w → R s' m w) {P : Members → Prop}
    (hpart : ∀ m x s, part m = some x → P m → I s →
      Ends x s (fun w s' => I s' ∧ G s s' ∧ R s' m w) E) : ∀ v s,
    (∀ m ∈ objects skips (fun m => (part m).isSome) v, P m) → I s →
    Ends (rebuild skips part v) s
      (fun w s' => I s' ∧ G s s' ∧ Rebuilt skips (fun m => (part m).isSome) (R s') v w) E := by
  refine Json.walk
    (Q := fun items => ∀ s, (∀ m ∈ objectsItems skips (fun m => (part m).isSome) items, P m) →
      I s → Ends (rebuildItems skips part items) s (fun ws s' => I s' ∧ G s s' ∧
        RebuiltItems skips (fun m => (part m).isSome) (R s') items ws) E)
    (R := fun m => ∀ s, (∀ n ∈ objectsMembers skips (fun m => (part m).isSome) m, P n) →
      I s → Ends (rebuildMembers skips part m) s (fun n s' => I s' ∧ G s s' ∧
        RebuiltMembers skips (fun m => (part m).isSome) (R s') m n) E)
    ?null ?bool ?num ?str ?arr ?obj ?none ?item ?empty ?member
  case null | bool | num | str =>
    intros
    simp only [rebuild, Rebuilt]
    exact Ends.pure ⟨‹_›, refl _, rfl⟩
  case none | empty => exact fun s _ hi => Ends.pure ⟨hi, refl s, rfl⟩
  case arr =>
    intro items ih s hpre hi
    refine Ends.bind (ih s hpre hi) ?_
    rintro ws s' ⟨hi', hle, hws⟩
    exact Ends.pure ⟨hi', hle, ws, rfl, hws⟩
  case obj =>
    intro m ih s hpre hi
    simp only [objects, List.forall_mem_cons] at hpre
    cases hm : part m with
    | some x =>
      rw [rebuild_part hm]
      refine Ends.imp (hpart m x s hm hpre.1 hi) ?_ fun _ _ h => h
      simpa only [Rebuilt, hm, Option.isSome_some, if_true] using fun _ _ h => h
    | none =>
      rw [rebuild_obj hm]
      simp only [Rebuilt, hm, Option.isSome_none, Bool.false_eq_true, if_false] at hpre ⊢
      refine Ends.bind (ih s hpre.2 hi) ?_
      rintro n s' ⟨hi', hle, hn⟩
      exact Ends.pure ⟨hi', hle, n, rfl, hn⟩
  case item =>
    intro v vs ihv ihvs s hpre hi
    simp only [objectsItems, List.forall_mem_append] at hpre
    refine Ends.bind (ihv s hpre.1 hi) ?_
    rintro w s₁ ⟨hi₁, hle₁, hw⟩
    refine Ends.bind (ihvs s₁ hpre.2 hi₁) ?_
    rintro ws s₂ ⟨hi₂, hle₂, hws⟩
    refine Ends.pure ⟨hi₂, trans hle₁ hle₂, w, ws, rfl, ?_, hws⟩
    exact Rebuilt.mono (fun _ _ => mono hle₂) v w hw
  case member =>
    intro k v m ihv ihm s hpre hi
    simp only [objectsMembers, List.forall_mem_append] at hpre
    simp only [rebuildMembers]
    refine Ends.bind (Q := fun w s₁ => I s₁ ∧ G s s₁ ∧ if skips k then w = v else
      Rebuilt skips (fun m => (part m).isSome) (R s₁) v w) ?_ ?_
    · by_cases hk : skips k = true
      · simp only [hk, if_true]
        exact Ends.pure ⟨hi, refl _, rfl⟩
      · simp only [hk, Bool.false_eq_true, if_false] at hpre ⊢
        exact ihv s hpre.1 hi
    · rintro w s₁ ⟨hi₁, hle₁, hw⟩
      refine Ends.bind (ihm s₁ hpre.2 hi₁) ?_
      rintro n s₂ ⟨hi₂, hle₂, hn⟩
      refine Ends.pure ⟨hi₂, trans hle₁ hle₂, w, n, rfl, ?_, hn⟩
      by_cases hk : skips k = true
      · simpa only [hk, if_true] using hw
      · simp only [hk, Bool.false_eq_true, if_false] at hw ⊢
        exact Rebuilt.mono (fun _ _ => mono hle₂) v w hw

end

/-! ## Equality up to the order of members -/

mutual

def Alike : Json → Json → Prop
  | .arr items, y => ∃ ys, y = .arr ys ∧ AlikeItems items ys
  | .obj m, y => ∃ n, y = .obj n ∧ AlikeMembers m n
  | v, y => y = v

def AlikeItems : List Json → List Json → Prop
  | [], ys => ys = []
  | v :: vs, ys => ∃ y ys', ys = y :: ys' ∧ Alike v y ∧ AlikeItems vs ys'

def AlikeMembers : Members → Members → Prop
  | [], n => n = []
  | (k, v) :: m, n => ∃ y n', n.Perm ((k, y) :: n') ∧ Alike v y ∧ AlikeMembers m n'

end

theorem Alike.refl : ∀ v, Alike v v := by
  refine Json.walk (Q := fun items => AlikeItems items items)
    (R := fun m => AlikeMembers m m)
    ?null ?bool ?num ?str ?arr ?obj ?none ?item ?empty ?member
  case null | bool | num | str => intros; simp [Alike]
  case none | empty => simp [AlikeItems, AlikeMembers]
  case arr => exact fun items ih => ⟨items, rfl, ih⟩
  case obj => exact fun m ih => ⟨m, rfl, ih⟩
  case item => exact fun v vs ihv ihvs => ⟨v, vs, rfl, ihv, ihvs⟩
  case member => exact fun k v m ihv ihm => ⟨v, m, .refl _, ihv, ihm⟩

theorem AlikeMembers.perm {m n n' : Members} (h : AlikeMembers m n) (hn : n.Perm n') :
    AlikeMembers m n' := by
  cases m with
  | nil =>
    simp only [AlikeMembers] at h ⊢
    subst h
    exact List.nil_perm.mp hn
  | cons p m =>
    obtain ⟨k, v⟩ := p
    obtain ⟨y, n₀, hperm, hy, hm⟩ := h
    exact ⟨y, n₀, hn.symm.trans hperm, hy, hm⟩

theorem AlikeMembers.of_perm {m n : Members} (h : m.Perm n) : AlikeMembers m n := by
  obtain ⟨n', hn', hm⟩ : ∃ n', n'  = m ∧ AlikeMembers m n' := by
    obtain ⟨n', hn', hm⟩ := Alike.refl (.obj m)
    cases hn'
    exact ⟨m, rfl, hm⟩
  subst hn'
  exact hm.perm h

theorem AlikeMembers.names {m n : Members} (h : AlikeMembers m n) :
    (n.map (·.1)).Perm (m.map (·.1)) := by
  induction m generalizing n with
  | nil =>
    simp only [AlikeMembers] at h
    simp [h]
  | cons p m ih =>
    obtain ⟨k, v⟩ := p
    obtain ⟨y, n', hperm, -, hm⟩ := h
    refine (hperm.map (·.1)).trans ?_
    simpa using ih hm

theorem alikeMembers_cons {k : JsString} {v w : Json} {m n : Members}
    (h : ((((k, w) :: n) : Members).map (·.1)).Nodup) :
    AlikeMembers ((k, v) :: m) ((k, w) :: n) ↔ Alike v w ∧ AlikeMembers m n := by
  constructor
  · rintro ⟨y, n', hperm, hy, hm⟩
    have hmem : (k, y) ∈ (k, w) :: n := hperm.mem_iff.mpr List.mem_cons_self
    have hyw : y = w := by
      rcases List.mem_cons.mp hmem with heq | hmem
      · exact (Prod.mk.inj heq).2
      · simp only [List.map_cons, List.nodup_cons] at h
        exact absurd (List.mem_map_of_mem (f := (·.1)) hmem) h.1
    subst hyw
    exact ⟨hy, hm.perm ((List.perm_cons _).mp hperm).symm⟩
  · rintro ⟨hw, hm⟩
    exact ⟨w, n, .refl _, hw, hm⟩

def Proper (v : Json) : Prop :=
  ∀ m ∈ objects (fun _ => false) (fun _ => false) v, (m.map (·.1)).Nodup

theorem Rebuilt.alike_iff {skips : JsString → Bool} {stops : Members → Bool}
    {R : Members → Json → Prop} {P : Members → Prop}
    (hR : ∀ m x, stops m = true → (m.map (·.1)).Nodup → R m x → (Alike (.obj m) x ↔ P m)) : ∀ v x,
    (∀ m ∈ objects skips stops v, (m.map (·.1)).Nodup) → Rebuilt skips stops R v x →
      (Alike v x ↔ ∀ m ∈ objects skips stops v, stops m = true → P m) := by
  refine Json.walk
    (Q := fun items => ∀ xs, (∀ m ∈ objectsItems skips stops items, (m.map (·.1)).Nodup) →
      RebuiltItems skips stops R items xs → (AlikeItems items xs ↔
        ∀ m ∈ objectsItems skips stops items, stops m = true → P m))
    (R := fun m => ∀ n, (m.map (·.1)).Nodup →
      (∀ m' ∈ objectsMembers skips stops m, (m'.map (·.1)).Nodup) →
      RebuiltMembers skips stops R m n → (AlikeMembers m n ↔
        ∀ m' ∈ objectsMembers skips stops m, stops m' = true → P m'))
    ?null ?bool ?num ?str ?arr ?obj ?none ?item ?empty ?member
  case null | bool | num | str => intros; simp [objects, Alike, Rebuilt] at *; assumption
  case none => intro xs _ h; simpa [objectsItems, AlikeItems, RebuiltItems] using h
  case empty => intro n _ _ h; simpa [objectsMembers, AlikeMembers, RebuiltMembers] using h
  case arr =>
    rintro items ih x hnodup ⟨xs, rfl, hxs⟩
    simp only [Alike, Json.arr.injEq, exists_eq_left', objects]
    exact ih xs hnodup hxs
  case obj =>
    intro m ih x hnodup hx
    simp only [Rebuilt, objects, List.forall_mem_cons] at hnodup hx ⊢
    by_cases hm : stops m = true
    · simp only [hm, if_true, forall_const] at hx ⊢
      simpa using hR m x hm hnodup.1 hx
    · simp only [hm, Bool.false_eq_true, if_false, false_implies, true_and] at hnodup hx ⊢
      obtain ⟨n, rfl, hn⟩ := hx
      simp only [Alike, Json.obj.injEq, exists_eq_left']
      exact ih n hnodup.1 hnodup.2 hn
  case item =>
    rintro v vs ihv ihvs xs hnodup ⟨x, xs', rfl, hx, hxs⟩
    simp only [objectsItems, List.forall_mem_append] at hnodup ⊢
    simp only [AlikeItems, List.cons.injEq]
    rw [← ihv x hnodup.1 hx, ← ihvs xs' hnodup.2 hxs]
    constructor
    · rintro ⟨_, _, ⟨rfl, rfl⟩, h⟩
      exact h
    · exact fun h => ⟨x, xs', ⟨rfl, rfl⟩, h⟩
  case member =>
    rintro k v m ihv ihm n hnames hnodup ⟨x, n', rfl, hx, hn⟩
    have hnames' : ((((k, x) :: n') : Members).map (·.1)).Nodup := by
      simpa [hn.names] using hnames
    simp only [List.map_cons, List.nodup_cons] at hnames
    simp only [objectsMembers, List.forall_mem_append] at hnodup ⊢
    rw [alikeMembers_cons hnames', ihm n' hnames.2 hnodup.2 hn]
    by_cases hk : skips k = true
    · simp only [hk, if_true] at hx ⊢
      subst hx
      simp [Alike.refl]
    · simp only [hk, Bool.false_eq_true, if_false] at hx hnodup ⊢
      rw [ihv x hnodup.1 hx]

end Lib
end PiCloud
