import Mathlib.Algebra.BigOperators.Group.List.Basic
import Mathlib.Algebra.Ring.Nat
import Mathlib.Data.List.Induction
import Mathlib.Data.List.Nodup

/-!
# Lib.InsertionMap

A map that keeps its keys in the order of their insertion, and a sum over the values of a map.

* `get`, `set`, `delete`: a key that is set again keeps its place.
* `mem_entries`: the entries are what the keys give.
* `ofList`, `ofFirst`: the map of a list, in which the last or the first value of a key stands.
* `sum_update`: the sum over distinct cells after one of them has changed.
-/

namespace PiCloud
namespace Lib

instance lawfulBEq_natPair : LawfulBEq (Nat × Nat) := inferInstance

structure InsertionMap (κ ν : Type) where
  entries : List (κ × ν) := []
  nodup : (entries.map Prod.fst).Nodup := by exact List.nodup_nil

namespace InsertionMap

variable {κ ν : Type}

def size (m : InsertionMap κ ν) : Nat := m.entries.length

section Keys

variable [DecidableEq κ]

def get (m : InsertionMap κ ν) (k : κ) : Option ν :=
  (m.entries.find? fun e => e.1 = k).map Prod.snd

theorem get_empty (k : κ) (v : ν) : ({} : InsertionMap κ ν).get k ≠ some v := nofun

theorem mem_entries {m : InsertionMap κ ν} {k : κ} {v : ν} :
    (k, v) ∈ m.entries ↔ m.get k = some v := by
  obtain ⟨entries, hnodup⟩ := m
  unfold get
  dsimp only
  induction entries with
  | nil => simp
  | cons e entries ih =>
    obtain ⟨j, w⟩ := e
    rw [List.map_cons, List.nodup_cons] at hnodup
    rw [List.mem_cons, List.find?_cons, ih hnodup.2]
    by_cases hjk : j = k
    · subst hjk
      rw [decide_eq_true rfl]
      simp only [Option.map_some, Option.some_inj, Prod.mk.injEq, true_and]
      constructor
      · rintro (rfl | hfind)
        · rfl
        · obtain ⟨e, he, -⟩ := Option.map_eq_some_iff.mp hfind
          have hje : e.1 = j := by simpa using List.find?_some he
          exact absurd (List.mem_map.mpr ⟨e, List.mem_of_find?_eq_some he, hje⟩) hnodup.1
      · rintro rfl
        exact .inl rfl
    · rw [decide_eq_false hjk]
      simp only [Prod.mk.injEq]
      exact ⟨fun h => h.resolve_left fun h' => hjk h'.1.symm, .inr⟩

theorem get_eq_none {m : InsertionMap κ ν} {k : κ} :
    m.get k = none ↔ k ∉ m.entries.map Prod.fst := by
  constructor
  · intro hnone hk
    obtain ⟨⟨j, v⟩, he, rfl⟩ := List.mem_map.mp hk
    rw [mem_entries.mp he] at hnone
    cases hnone
  · intro hk
    cases hget : m.get k with
    | none => rfl
    | some v => exact absurd (List.mem_map.mpr ⟨(k, v), mem_entries.mpr hget, rfl⟩) hk

def delete (m : InsertionMap κ ν) (k : κ) : InsertionMap κ ν where
  entries := m.entries.filter fun e => e.1 ≠ k
  nodup := m.nodup.sublist (List.filter_sublist.map _)

theorem get_delete (m : InsertionMap κ ν) (k j : κ) :
    (m.delete k).get j = if j = k then none else m.get j := by
  refine Option.ext fun v => ?_
  rw [← mem_entries]
  unfold delete
  dsimp only
  rw [List.mem_filter, mem_entries]
  by_cases hjk : j = k
  · simp [hjk]
  · simp [hjk]

theorem get_delete_iff {m : InsertionMap κ ν} {k j : κ} {v : ν} :
    (m.delete k).get j = some v ↔ j ≠ k ∧ m.get j = some v := by
  rw [get_delete, Option.ite_none_left_eq_some]

theorem get_delete_some {m : InsertionMap κ ν} {k j : κ} {v : ν} (h : (m.delete k).get j = some v) :
    m.get j = some v := (get_delete_iff.mp h).2

/-- The entry of a key that is not there yet comes last. -/
def push (m : InsertionMap κ ν) (k : κ) (v : ν) (h : m.get k = none) : InsertionMap κ ν where
  entries := m.entries ++ [(k, v)]
  nodup := by
    rw [List.map_append]
    refine List.nodup_append.mpr ⟨m.nodup, List.nodup_singleton k, ?_⟩
    rintro a ha b hb rfl
    have hak : a = k := List.mem_singleton.mp hb
    exact get_eq_none.mp h (hak ▸ ha)

def filter (m : InsertionMap κ ν) (p : κ → ν → Bool) : InsertionMap κ ν where
  entries := m.entries.filter fun e => p e.1 e.2
  nodup := m.nodup.sublist (List.filter_sublist.map _)

theorem get_filter_some {m : InsertionMap κ ν} {p : κ → ν → Bool} {k : κ} {v : ν}
    (h : (m.filter p).get k = some v) : m.get k = some v := by
  rw [← mem_entries] at h ⊢
  exact (List.mem_filter.mp h).1

def deleteOldest (m : InsertionMap κ ν) : InsertionMap κ ν where
  entries := m.entries.tail
  nodup := m.nodup.sublist ((List.tail_sublist m.entries).map _)

theorem get_deleteOldest_some {m : InsertionMap κ ν} {k : κ} {v : ν}
    (h : m.deleteOldest.get k = some v) : m.get k = some v := by
  rw [← mem_entries] at h ⊢
  exact List.mem_of_mem_tail h

theorem replace_keys (entries : List (κ × ν)) (k : κ) (v : ν) :
    (entries.map fun e => if e.1 = k then (k, v) else e).map Prod.fst = entries.map Prod.fst := by
  rw [List.map_map]
  refine List.map_congr_left fun e _ => ?_
  dsimp only [Function.comp]
  split
  · rename_i hek
    exact hek.symm
  · rfl

def replace (m : InsertionMap κ ν) (k : κ) (v : ν) : InsertionMap κ ν where
  entries := m.entries.map fun e => if e.1 = k then (k, v) else e
  nodup := by
    rw [replace_keys]
    exact m.nodup

def set (m : InsertionMap κ ν) (k : κ) (v : ν) : InsertionMap κ ν :=
  if h : m.get k = none then m.push k v h else m.replace k v

theorem get_set (m : InsertionMap κ ν) (k j : κ) (v : ν) :
    (m.set k v).get j = if j = k then some v else m.get j := by
  refine Option.ext fun w => ?_
  rw [← mem_entries]
  unfold set
  split
  · rename_i hnone
    unfold push
    dsimp only
    rw [List.mem_append, mem_entries, List.mem_singleton]
    by_cases hjk : j = k
    · subst hjk
      simp [hnone, eq_comm]
    · simp [hjk]
  · rename_i hsome
    unfold replace
    dsimp only
    rw [List.mem_map]
    by_cases hjk : j = k
    · subst hjk
      rw [if_pos rfl]
      constructor
      · rintro ⟨⟨i, u⟩, he, heq⟩
        dsimp only at heq
        split at heq
        · cases heq
          rfl
        · rename_i hij
          cases heq
          exact absurd rfl hij
      · intro hvw
        cases hvw
        obtain ⟨u, hu⟩ := Option.ne_none_iff_exists'.mp hsome
        exact ⟨(j, u), mem_entries.mpr hu, if_pos rfl⟩
    · rw [if_neg hjk, ← mem_entries]
      constructor
      · rintro ⟨⟨i, u⟩, he, heq⟩
        dsimp only at heq
        split at heq
        · cases heq
          exact absurd rfl hjk
        · cases heq
          exact he
      · exact fun he => ⟨(j, w), he, if_neg hjk⟩

@[simp] theorem get_set_self (m : InsertionMap κ ν) (k : κ) (v : ν) : (m.set k v).get k = some v := by
  rw [get_set, if_pos rfl]

theorem get_set_ne (m : InsertionMap κ ν) {k j : κ} (v : ν) (h : j ≠ k) :
    (m.set k v).get j = m.get j := by
  rw [get_set, if_neg h]

/-- The value of a key that is there, changed. -/
def update (m : InsertionMap κ ν) (k : κ) (f : ν → ν) : InsertionMap κ ν :=
  match m.get k with
  | none => m
  | some v => m.set k (f v)

theorem get_update (m : InsertionMap κ ν) (k j : κ) (f : ν → ν) :
    (m.update k f).get j = if j = k then (m.get j).map f else m.get j := by
  unfold update
  split
  · rename_i hnone
    split
    · rename_i hjk
      rw [hjk, hnone]
      rfl
    · rfl
  · rename_i v hsome
    rw [get_set]
    split
    · rename_i hjk
      rw [hjk, hsome]
      rfl
    · rfl

theorem get_foldl_delete (m : InsertionMap κ ν) (ks : List κ) (j : κ) :
    (ks.foldl delete m).get j = if j ∈ ks then none else m.get j := by
  induction ks generalizing m with
  | nil => simp
  | cons k ks ih =>
    rw [List.foldl_cons, ih, get_delete]
    by_cases hjk : j = k
    · simp [hjk]
    · simp [hjk]

section Values

variable (key : ν → κ)

theorem get_foldl_set_other (m : InsertionMap κ ν) (vs : List ν) {j : κ} (h : j ∉ vs.map key) :
    (vs.foldl (fun m v => m.set (key v) v) m).get j = m.get j := by
  induction vs generalizing m with
  | nil => rfl
  | cons v vs ih =>
    rw [List.map_cons, List.mem_cons, not_or] at h
    rw [List.foldl_cons, ih _ h.2, get_set_ne _ _ h.1]

theorem get_foldl_set_mem (m : InsertionMap κ ν) {vs : List ν} (h : (vs.map key).Nodup) {v : ν}
    (hv : v ∈ vs) : (vs.foldl (fun m v => m.set (key v) v) m).get (key v) = some v := by
  induction vs generalizing m with
  | nil => cases hv
  | cons w vs ih =>
    rw [List.map_cons, List.nodup_cons] at h
    rw [List.foldl_cons]
    obtain rfl | hv := List.mem_cons.mp hv
    · rw [get_foldl_set_other key _ _ h.1, get_set_self]
    · exact ih _ h.2 hv

end Values

theorem entries_set (m : InsertionMap κ ν) (k : κ) (v : ν) (h : m.get k = none) :
    (m.set k v).entries = m.entries ++ [(k, v)] := by
  unfold set
  rw [dif_pos h]
  rfl

theorem keys_set_of_some (m : InsertionMap κ ν) {k : κ} (v : ν) (h : m.get k ≠ none) :
    (m.set k v).entries.map Prod.fst = m.entries.map Prod.fst := by
  unfold set
  rw [dif_neg h]
  exact replace_keys m.entries k v

theorem keys_set_of_none (m : InsertionMap κ ν) {k : κ} (v : ν) (h : m.get k = none) :
    (m.set k v).entries.map Prod.fst = m.entries.map Prod.fst ++ [k] := by
  rw [entries_set m k v h, List.map_append]
  rfl

def ofList (l : List (κ × ν)) : InsertionMap κ ν := l.foldl (fun m e => m.set e.1 e.2) {}

theorem get_ofList (l : List (κ × ν)) (k : κ) :
    (ofList l).get k = (l.reverse.find? fun e => e.1 = k).map Prod.snd := by
  unfold ofList
  induction l using List.reverseRecOn with
  | nil => rfl
  | append_singleton l e ih =>
    rw [List.foldl_append, List.foldl_cons, List.foldl_nil, get_set, List.reverse_append, ih]
    by_cases hk : e.1 = k
    · rw [if_pos hk.symm, List.reverse_singleton, List.singleton_append,
        List.find?_cons, decide_eq_true hk]
      rfl
    · rw [if_neg (Ne.symm hk), List.reverse_singleton, List.singleton_append,
        List.find?_cons, decide_eq_false hk]

theorem entries_ofList {l : List (κ × ν)} (h : (l.map Prod.fst).Nodup) : (ofList l).entries = l := by
  induction l using List.reverseRecOn with
  | nil => rfl
  | append_singleton l e ih =>
    rw [List.map_append, List.nodup_append] at h
    have hlast : ofList (l ++ [e]) = (ofList l).set e.1 e.2 := by
      unfold ofList
      rw [List.foldl_append]
      rfl
    have hnone : (ofList l).get e.1 = none := by
      rw [get_eq_none, ih h.1]
      exact fun hin => h.2.2 _ hin _ (List.mem_singleton_self _) rfl
    rw [hlast, entries_set _ _ _ hnone, ih h.1]

def ofFirst (l : List (κ × ν)) : InsertionMap κ ν :=
  l.foldl (fun m e => if m.get e.1 = none then m.set e.1 e.2 else m) {}

theorem get_ofFirst (l : List (κ × ν)) (k : κ) :
    (ofFirst l).get k = (l.find? fun e => e.1 = k).map Prod.snd := by
  unfold ofFirst
  induction l using List.reverseRecOn with
  | nil => rfl
  | append_singleton l e ih =>
    rw [List.foldl_append, List.foldl_cons, List.foldl_nil, List.find?_append]
    by_cases hk : e.1 = k
    · subst hk
      split
      · rename_i hnone
        rw [ih, Option.map_eq_none_iff] at hnone
        rw [get_set_self, hnone, List.find?_cons, decide_eq_true rfl]
        rfl
      · rename_i hsome
        rw [ih] at hsome ⊢
        obtain ⟨v, hv⟩ := Option.ne_none_iff_exists'.mp hsome
        obtain ⟨f, hf, -⟩ := Option.map_eq_some_iff.mp hv
        rw [hf]
        rfl
    · have hlast : [e].find? (fun e => e.1 = k) = none :=
        List.find?_cons_of_neg (by simpa using hk)
      rw [hlast, Option.or_none]
      split
      · rw [get_set_ne _ _ (Ne.symm hk), ih]
      · exact ih

end Keys

section Size

variable [DecidableEq κ] {m : InsertionMap κ ν} {k : κ} {v : ν}

theorem only_of_size (h : m.size = 1) (hk : m.get k = some v) {j : κ} (hj : m.get j ≠ none) :
    j = k := by
  obtain ⟨w, hw⟩ := Option.ne_none_iff_exists'.mp hj
  obtain ⟨e, he⟩ := List.length_eq_one_iff.mp h
  have hmk := mem_entries.mpr hk
  have hmj := mem_entries.mpr hw
  rw [he, List.mem_singleton] at hmk hmj
  exact congrArg Prod.fst (hmj.trans hmk.symm)

theorem other_of_size (h : m.size ≠ 1) (hk : m.get k = some v) : ∃ j, m.get j ≠ none ∧ j ≠ k := by
  by_contra hnone
  have hall : ∀ j, m.get j ≠ none → j = k := by
    intro j hj
    by_contra hne
    exact hnone ⟨j, hj, hne⟩
  have hkeys : ∀ e ∈ m.entries.map Prod.fst, e = k := by
    intro j hj
    obtain ⟨⟨j, w⟩, he, rfl⟩ := List.mem_map.mp hj
    refine hall j ?_
    rw [mem_entries.mp he]
    nofun
  have hle := List.Nodup.length_le_of_subset m.nodup (fun j hj => List.mem_singleton.mpr (hkeys j hj))
  have hpos : 0 < m.entries.length := List.length_pos_of_mem (mem_entries.mpr hk)
  rw [List.length_map, List.length_singleton] at hle
  exact h (Nat.le_antisymm hle hpos)

end Size

def weight (m : InsertionMap κ ν) (f : κ × ν → Nat) : Nat := (m.entries.map f).sum

def sum (m : InsertionMap κ ν) (f : ν → Nat) : Nat := (m.entries.map fun e => f e.2).sum

section Sum

variable [DecidableEq κ] {f g : ν → Nat}

theorem weight_set (m : InsertionMap κ ν) (f : κ × ν → Nat) {k : κ} (v : ν) (h : m.get k = none) :
    (m.set k v).weight f = m.weight f + f (k, v) := by
  unfold weight
  rw [entries_set m k v h]
  simp

theorem weight_delete {m : InsertionMap κ ν} (f : κ × ν → Nat) {k : κ} {v : ν} (h : m.get k = some v) :
    (m.delete k).weight f + f (k, v) = m.weight f := by
  obtain ⟨entries, hnodup⟩ := m
  have hmem := mem_entries.mpr h
  clear h
  unfold delete weight
  dsimp only at hmem ⊢
  induction entries with
  | nil => cases hmem
  | cons e entries ih =>
    rw [List.map_cons, List.nodup_cons] at hnodup
    by_cases hek : e.1 = k
    · have hfilter : entries.filter (fun e => e.1 ≠ k) = entries := by
        rw [List.filter_eq_self]
        intro a ha
        refine decide_eq_true fun hak => hnodup.1 ?_
        rw [hek, ← hak]
        exact List.mem_map_of_mem ha
      have hv : e = (k, v) := by
        obtain rfl | hin := List.mem_cons.mp hmem
        · rfl
        · exact absurd (List.mem_map.mpr ⟨(k, v), hin, hek.symm⟩) hnodup.1
      rw [List.filter_cons_of_neg (by simpa using hek), hfilter, hv, List.map_cons, List.sum_cons]
      exact Nat.add_comm _ _
    · have hin : (k, v) ∈ entries := by
        obtain heq | hin := List.mem_cons.mp hmem
        · rw [← heq] at hek
          exact absurd rfl hek
        · exact hin
      rw [List.filter_cons_of_pos (by simpa using hek), List.map_cons, List.sum_cons,
        List.map_cons, List.sum_cons, Nat.add_assoc, ih hnodup.2 hin]

theorem sum_set (m : InsertionMap κ ν) (k : κ) (v : ν) (h : m.get k = none) :
    (m.set k v).sum f = m.sum f + f v :=
  weight_set m (fun e => f e.2) v h

theorem sum_delete {m : InsertionMap κ ν} {k : κ} {v : ν} (h : m.get k = some v) :
    (m.delete k).sum f + f v = m.sum f :=
  weight_delete (fun e => f e.2) h

theorem sum_congr {m : InsertionMap κ ν} (h : ∀ k v, m.get k = some v → f v = g v) :
    m.sum f = m.sum g := by
  unfold sum
  congr 1
  exact List.map_congr_left fun e he => h e.1 e.2 (mem_entries.mp he)

/-- One cell changes, and only the entry of `k` has it. -/
theorem sum_update {m : InsertionMap κ ν} {k : κ} {v : ν} (h : m.get k = some v)
    (hother : ∀ j w, m.get j = some w → j ≠ k → f w = g w) :
    m.sum g + f v = m.sum f + g v := by
  have hrest : (m.delete k).sum f = (m.delete k).sum g := by
    refine sum_congr fun j w hj => ?_
    rw [get_delete] at hj
    split at hj
    · cases hj
    · rename_i hjk
      exact hother j w hj hjk
  have hf := sum_delete (f := f) h
  have hg := sum_delete (f := g) h
  omega

end Sum

end InsertionMap
end Lib
end PiCloud
