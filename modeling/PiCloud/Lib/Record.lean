import PiCloud.Lib.Json

/-!
# Lib.Record

Objects of a JSON text as a program builds and reads them, field by field.

* `Members`: the members of an object, with `get`, `has`, `without` and a list of allowed names.
* `record`: the members that fields make; a field without a value (`undefined`) makes none.
* `Inverts read write fits x`: the reader takes back what the writer made of `x` exactly where `x`
  fits. Lists of such values do the same.
-/

namespace PiCloud
namespace Lib

abbrev Members := List (JsString × Json)

/-- What an object holds under a name. -/
abbrev Field := Option Json

namespace Members

def get (m : Members) (name : String) : Field := m.lookup (ascii name)

def has (m : Members) (name : String) : Bool := (m.get name).isSome

def without (m : Members) (names : List String) : Members :=
  m.filter fun p => !(names.map ascii).contains p.1

/-- `{ ...m, name: v }` -/
def set (m : Members) (name : String) (v : Json) : Members := m.without [name] ++ [(ascii name, v)]

def onlyKeys (m : Members) (allowed : List String) : Bool :=
  m.all fun p => (allowed.map ascii).contains p.1

@[simp] theorem get_nil (name : String) : get [] name = none := rfl

theorem get_append (m m' : Members) (name : String) :
    get (m ++ m') name = (get m name).or (get m' name) := by
  simp [get, List.lookup_append]

theorem get_append_of_lacks {m : Members} {name : String} (h : m.has name = false)
    (m' : Members) : get (m ++ m') name = get m' name := by
  have hm : get m name = none := by simpa [has] using h
  rw [get_append, hm, Option.none_or]

theorem has_append (m m' : Members) (name : String) :
    has (m ++ m') name = (has m name || has m' name) := by
  simp [has, get_append, Option.isSome_or]

theorem lacks_iff {m : Members} {name : String} :
    m.has name = false ↔ ∀ p ∈ m, p.1 ≠ ascii name := by
  unfold has get
  induction m with
  | nil => simp
  | cons p m ih =>
    rw [List.lookup_cons]
    by_cases hp : ascii name = p.1
    · simp [hp]
    · have hb : (ascii name == p.1) = false := by simpa using hp
      simp only [hb, ih, List.forall_mem_cons]
      exact ⟨fun h => ⟨Ne.symm hp, h⟩, fun h => h.2⟩

theorem without_lacks {m : Members} {names : List String} {name : String} (h : name ∈ names) :
    (m.without names).has name = false := by
  rw [lacks_iff]
  intro p hp heq
  simp only [without, List.mem_filter, Bool.not_eq_true', List.contains_eq_mem,
    decide_eq_false_iff_not] at hp
  exact hp.2 (heq ▸ List.mem_map_of_mem h)

theorem has_without_le {m : Members} {names : List String} {name : String}
    (h : m.has name = false) : (m.without names).has name = false := by
  rw [lacks_iff] at h ⊢
  intro p hp
  exact h p (List.mem_filter.mp hp).1

theorem without_eq_self {m : Members} {names : List String}
    (h : ∀ name ∈ names, m.has name = false) : m.without names = m := by
  unfold without
  rw [List.filter_eq_self]
  intro p hp
  simp only [Bool.not_eq_true', List.contains_eq_mem, decide_eq_false_iff_not, List.mem_map,
    not_exists, not_and]
  intro name hn heq
  exact lacks_iff.mp (h name hn) p hp heq.symm

theorem without_append (m m' : Members) (names : List String) :
    (m ++ m').without names = m.without names ++ m'.without names := by
  simp [without, List.filter_append]

theorem get_cons (k : JsString) (v : Json) (m : Members) (name : String) :
    get ((k, v) :: m) name = if ascii name = k then some v else get m name := by
  unfold get
  rw [List.lookup_cons]
  by_cases h : ascii name = k
  · simp [h]
  · have hb : (ascii name == k) = false := by simpa using h
    simp [h, hb]

theorem without_cons (k : JsString) (v : Json) (m : Members) (names : List String) :
    without ((k, v) :: m) names =
      if k ∈ names.map ascii then m.without names else (k, v) :: m.without names := by
  unfold without
  rw [List.filter_cons]
  by_cases h : k ∈ names.map ascii
  · rw [if_pos h, if_neg (by simpa using h)]
  · rw [if_neg h, if_pos (by simpa using h)]

theorem without_without (m : Members) (names names' : List String) :
    (m.without names).without names' = m.without (names ++ names') := by
  simp only [without, List.filter_filter]
  congr 1
  funext p
  simp [Bool.and_comm]

theorem without_congr (m : Members) {names N : List String}
    (h : ∀ k, k ∈ names.map ascii ↔ k ∈ N.map ascii) : m.without names = m.without N := by
  unfold without
  refine List.filter_congr fun p _ => ?_
  simp only [List.contains_eq_mem, h]

theorem get_without (m : Members) {name : String} {names : List String}
    (h : ascii name ∉ names.map ascii) : (m.without names).get name = m.get name := by
  induction m with
  | nil => rfl
  | cons p m ih =>
    obtain ⟨k, v⟩ := p
    rw [without_cons, get_cons]
    by_cases hk : ascii name = k
    · subst hk
      rw [if_neg h, get_cons]
      simp
    · rw [if_neg hk]
      split
      · exact ih
      · rw [get_cons, if_neg hk]
        exact ih

theorem perm_without {m : Members} (h : (m.map (·.1)).Nodup) {name : String} {v : Json}
    (hv : get m name = some v) : m.Perm (without m [name] ++ [(ascii name, v)]) := by
  induction m with
  | nil => cases hv
  | cons p m ih =>
    obtain ⟨k, w⟩ := p
    simp only [List.map_cons, List.nodup_cons] at h
    rw [get_cons] at hv
    rw [without_cons]
    by_cases hk : ascii name = k
    · subst hk
      rw [if_pos rfl] at hv
      cases hv
      have hlacks : has m name = false := by
        rw [lacks_iff]
        intro p hp heq
        exact h.1 (heq ▸ List.mem_map_of_mem hp)
      have hrest : without m [name] = m := without_eq_self (by simpa using hlacks)
      rw [if_pos (by simp), hrest]
      exact (List.perm_append_singleton _ _).symm
    · rw [if_neg hk] at hv
      have hk' : ¬k ∈ [name].map ascii := by simpa using fun heq => hk heq.symm
      rw [if_neg hk']
      exact (ih h.2 hv).cons _

theorem names_without (m : Members) (names : List String) :
    (m.without names).map (·.1) = (m.map (·.1)).filter fun k => !(names.map ascii).contains k := by
  unfold without
  rw [List.filter_map]
  rfl

end Members

/-! ## Records -/

def record : List (String × Field) → Members
  | [] => []
  | (name, some v) :: fields => (ascii name, v) :: record fields
  | (_, none) :: fields => record fields

@[simp] theorem record_nil : record [] = [] := rfl

theorem mem_record {fields : List (String × Field)} {p : JsString × Json} (h : p ∈ record fields) :
    ∃ name, (name, some p.2) ∈ fields ∧ p.1 = ascii name := by
  induction fields with
  | nil => simp at h
  | cons f fields ih =>
    obtain ⟨name, v⟩ := f
    cases v with
    | none =>
      obtain ⟨other, hm, heq⟩ := ih h
      exact ⟨other, List.mem_cons_of_mem _ hm, heq⟩
    | some v =>
      rcases List.mem_cons.mp h with rfl | h
      · exact ⟨name, List.mem_cons_self, rfl⟩
      · obtain ⟨other, hm, heq⟩ := ih h
        exact ⟨other, List.mem_cons_of_mem _ hm, heq⟩

theorem record_lacks {fields : List (String × Field)} {name : String}
    (h : ascii name ∉ (fields.map (·.1)).map ascii) : (record fields).has name = false := by
  rw [Members.lacks_iff]
  intro p hp heq
  obtain ⟨other, hm, hother⟩ := mem_record hp
  apply h
  rw [← heq, hother]
  exact List.mem_map_of_mem (List.mem_map_of_mem hm)

def Distinct (names : List String) : Prop := (names.map ascii).Nodup

instance (names : List String) : Decidable (Distinct names) :=
  inferInstanceAs (Decidable (names.map ascii).Nodup)

theorem get_record (fields : List (String × Field)) (h : Distinct (fields.map (·.1))) :
    ∀ f ∈ fields, (record fields).get f.1 = f.2 := by
  induction fields with
  | nil => intro f hf; simp at hf
  | cons f fields ih =>
    obtain ⟨name, v⟩ := f
    simp only [Distinct, List.map_cons, List.nodup_cons, List.mem_map, not_exists, not_and] at h
    obtain ⟨hne, hrest⟩ := h
    have hlacks : (record fields).has name = false := by
      refine record_lacks fun hm => ?_
      rw [List.map_map, List.mem_map] at hm
      obtain ⟨g, hg, heq⟩ := hm
      exact hne g.1 ⟨g, hg, rfl⟩ heq
    intro g hg
    rcases List.mem_cons.mp hg with rfl | hmem
    · cases v with
      | none =>
        rw [show record ((name, none) :: fields) = record fields from rfl]
        simpa [Members.has] using hlacks
      | some v => simp [record, Members.get]
    · have hname : ascii g.1 ≠ ascii name := fun heq => hne g.1 ⟨g, hmem, rfl⟩ heq
      have hb : (ascii g.1 == ascii name) = false := by simpa using hname
      cases v with
      | none => exact ih hrest g hmem
      | some v =>
        simp only [record, Members.get, List.lookup_cons, hb]
        exact ih hrest g hmem

theorem onlyKeys_record {fields : List (String × Field)} {allowed : List String}
    (h : ∀ f ∈ fields, f.1 ∈ allowed) : (record fields).onlyKeys allowed = true := by
  unfold Members.onlyKeys
  rw [List.all_eq_true]
  induction fields with
  | nil => intro p hp; simp at hp
  | cons f fields ih =>
    obtain ⟨name, v⟩ := f
    have hrest := ih fun f hf => h f (List.mem_cons_of_mem _ hf)
    cases v with
    | none => exact hrest
    | some v =>
      intro p hp
      rcases List.mem_cons.mp hp with rfl | hp
      · have := h (name, some v) List.mem_cons_self
        simp only [List.contains_eq_mem, decide_eq_true_eq]
        exact List.mem_map_of_mem this
      · exact hrest p hp

/-! ## Values as a program tests them -/

def truthy : Field → Bool
  | none | some .null => false
  | some (.bool b) => b
  | some (.num q) => q ≠ 0
  | some (.str s) => s ≠ []
  | some (.arr _) | some (.obj _) => true

def isStr (v : Field) (s : JsString) : Bool :=
  match v with
  | some (.str t) => t = s
  | _ => false

def isText (v : Field) (s : String) : Bool := isStr v (ascii s)

/-- Strict equality. Two arrays or objects of a parsed text are never the same one. -/
def same : Field → Field → Bool
  | none, none | some .null, some .null => true
  | some (.bool a), some (.bool b) => a = b
  | some (.num a), some (.num b) => a = b
  | some (.str a), some (.str b) => a = b
  | _, _ => false

def maxSafeInteger : Nat := 9007199254740991

/-- `Number.isSafeInteger`, for a number from `least` on. -/
def safeInteger (least : Int) (v : Field) : Bool :=
  match v with
  | some (.num q) => q.den = 1 && least ≤ q.num && q.num.natAbs ≤ maxSafeInteger
  | _ => false

/-- `v?.name` -/
def at? (v : Field) (name : String) : Field :=
  match v with
  | some (.obj m) => Members.get m name
  | _ => none

def isObject : Field → Bool
  | some (.obj _) => true
  | _ => false

def isString : Field → Bool
  | some (.str _) => true
  | _ => false

/-- `null` or `undefined` -/
def nullish : Field → Bool
  | none | some .null => true
  | _ => false

/-- The members that a spread copies out of a value. -/
def spread : Field → Members
  | some (.obj m) => m
  | some (.arr items) => items.zipIdx.map fun p => (jsonNat p.2, p.1)
  | _ => []

/-! ## Readers and writers -/

variable {ε ε' α β : Type}

theorem bind_eq_ok {x : Except ε α} {f : α → Except ε β} {b : β} :
    x >>= f = .ok b ↔ ∃ a, x = .ok a ∧ f a = .ok b := by
  cases x with
  | error e => simp [bind, Except.bind]
  | ok a => simp [bind, Except.bind]

/-- What `write` makes of `x`, `read` takes back as `x`, exactly where `x` fits. -/
def Inverts (read : β → Except ε α) (write : α → Except ε' β) (fits : α → Prop) (x : α) : Prop :=
  ∀ b, write x = .ok b → ∀ y, read b = .ok y ↔ y = x ∧ fits x

theorem Inverts.mapM {read : β → Except ε α} {write : α → Except ε' β} {fits : α → Prop}
    {xs : List α} (h : ∀ x ∈ xs, Inverts read write fits x) :
    Inverts (fun bs : List β => bs.mapM read) (fun xs : List α => xs.mapM write)
      (fun xs => ∀ x ∈ xs, fits x) xs := by
  induction xs with
  | nil =>
    intro bs hw ys
    simp only [List.mapM_nil] at hw
    cases hw
    simp only [List.mapM_nil, List.not_mem_nil, false_implies, implies_true, and_true]
    exact ⟨fun h => by cases h; rfl, fun h => by rw [h]; rfl⟩
  | cons x xs ih =>
    intro bs hw ys
    have hx := h x List.mem_cons_self
    have hxs := ih fun x' hx' => h x' (List.mem_cons_of_mem _ hx')
    simp only [List.mapM_cons] at hw
    obtain ⟨b, hb, hw⟩ := bind_eq_ok.mp hw
    obtain ⟨bs, hbs, hw⟩ := bind_eq_ok.mp hw
    cases hw
    simp only [List.mapM_cons, bind_eq_ok, hx b hb, hxs bs hbs, List.forall_mem_cons]
    constructor
    · rintro ⟨y, ⟨rfl, hy⟩, ys, ⟨rfl, hys⟩, hp⟩
      cases hp
      exact ⟨rfl, hy, hys⟩
    · rintro ⟨rfl, hfx, hfxs⟩
      exact ⟨x, ⟨rfl, hfx⟩, xs, ⟨rfl, hfxs⟩, rfl⟩

theorem ok_bind (a : α) (f : α → Except ε β) : (Except.ok a >>= f) = f a := rfl

end Lib
end PiCloud
