import Mathlib.Data.List.Basic
import Mathlib.Data.List.Count
import Mathlib.Data.List.Perm.Basic

/-!
# Lib.Slots

Tasks in flight, held in a list by position: a task goes on in its place, or leaves.

* `map_set`: what a task keeps when it goes on, the list keeps.
* `eraseIdx_perm`, `count_eraseIdx`, `ne_of_mem_eraseIdx`: the others when a task leaves.
-/

namespace PiCloud
namespace Lib
namespace Slots

variable {α β : Type}

theorem map_set {l : List α} {i : Nat} {a a' : α} {f : α → β} (h : l[i]? = some a)
    (hf : f a' = f a) : (l.set i a').map f = l.map f := by
  refine List.ext_getElem? fun j => ?_
  rw [List.getElem?_map, List.getElem?_map, List.getElem?_set]
  split
  · rename_i hij
    subst hij
    obtain ⟨hlt, -⟩ := List.getElem?_eq_some_iff.mp h
    rw [if_pos hlt, h, Option.map_some, Option.map_some, hf]
  · rfl

theorem eraseIdx_perm {l : List α} {i : Nat} {a : α} (h : l[i]? = some a) :
    (a :: l.eraseIdx i).Perm l := by
  obtain ⟨hlt, rfl⟩ := List.getElem?_eq_some_iff.mp h
  exact List.getElem_cons_eraseIdx_perm hlt

theorem count_eraseIdx [DecidableEq β] {l : List α} {i : Nat} {a : α} (h : l[i]? = some a)
    (f : α → β) (b : β) :
    ((l.eraseIdx i).map f).count b + (if f a = b then 1 else 0) = (l.map f).count b := by
  have hperm := ((eraseIdx_perm h).map f).count_eq b
  rw [List.map_cons, List.count_cons] at hperm
  simpa using hperm

theorem ne_of_mem_eraseIdx {l : List α} {i : Nat} {a b : α} {f : α → β} (h : l[i]? = some a)
    (hnodup : (l.map f).Nodup) (hb : b ∈ l.eraseIdx i) : f b ≠ f a := by
  have hcons := ((eraseIdx_perm h).map f).nodup_iff.mpr hnodup
  rw [List.map_cons, List.nodup_cons] at hcons
  intro heq
  exact hcons.1 (heq ▸ List.mem_map_of_mem hb)

end Slots
end Lib
end PiCloud
