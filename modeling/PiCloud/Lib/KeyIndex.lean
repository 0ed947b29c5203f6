import PiCloud.Lib.InsertionMap

/-!
# Lib.KeyIndex

A second map that says, for each owner, under which keys of the first its values stand. The keys of an
owner are in the order in which the first map has them.

* `keysWith`: the keys of an owner, computed from the map itself.
* `join`, `leave`: the changes of the index.
* `Indexes`: the index is what the map gives; `Indexes.push`, `Indexes.update` and `Indexes.delete`.
-/

namespace PiCloud
namespace Lib
namespace InsertionMap

variable {κ ν ι : Type} [DecidableEq κ] [DecidableEq ι]

def keysWith (m : InsertionMap κ ν) (owner : ν → ι) (i : ι) : List κ :=
  (m.entries.filter fun e => owner e.2 = i).map Prod.fst

theorem mem_keysWith {m : InsertionMap κ ν} {owner : ν → ι} {i : ι} {k : κ} :
    k ∈ m.keysWith owner i ↔ ∃ v, m.get k = some v ∧ owner v = i := by
  unfold keysWith
  rw [List.mem_map]
  constructor
  · rintro ⟨⟨k, v⟩, he, rfl⟩
    obtain ⟨he, hv⟩ := List.mem_filter.mp he
    exact ⟨v, mem_entries.mp he, of_decide_eq_true hv⟩
  · rintro ⟨v, hk, hv⟩
    exact ⟨(k, v), List.mem_filter.mpr ⟨mem_entries.mpr hk, decide_eq_true hv⟩, rfl⟩

def join (index : InsertionMap ι (List κ)) (i : ι) (k : κ) : InsertionMap ι (List κ) :=
  index.set i ((index.get i).getD [] ++ [k])

def leave (index : InsertionMap ι (List κ)) (i : ι) (k : κ) : InsertionMap ι (List κ) :=
  let keys := ((index.get i).getD []).filter fun j => j ≠ k
  if keys.isEmpty then index.delete i else index.set i keys

structure Indexes (index : InsertionMap ι (List κ)) (m : InsertionMap κ ν) (owner : ν → ι) :
    Prop where
  keys : ∀ i, (index.get i).getD [] = m.keysWith owner i
  used : ∀ i, index.get i ≠ some []

namespace Indexes

variable {index : InsertionMap ι (List κ)} {m : InsertionMap κ ν} {owner : ν → ι}

omit [DecidableEq κ] in
theorem empty : Indexes ({} : InsertionMap ι (List κ)) ({} : InsertionMap κ ν) owner where
  keys _ := rfl
  used _ := nofun

theorem push (h : Indexes index m owner) {k : κ} (v : ν) (hk : m.get k = none) :
    Indexes (index.join (owner v) k) (m.set k v) owner where
  keys i := by
    unfold join keysWith
    rw [get_set, entries_set m k v hk, List.filter_append, List.map_append]
    by_cases hi : i = owner v
    · subst hi
      rw [if_pos rfl, Option.getD_some, h.keys, List.filter_singleton, decide_eq_true rfl]
      rfl
    · rw [if_neg hi, h.keys, List.filter_singleton, decide_eq_false fun heq => hi heq.symm]
      exact (List.append_nil _).symm
  used i := by
    unfold join
    rw [get_set]
    split
    · intro heq
      rw [Option.some_inj] at heq
      exact List.append_ne_nil_of_right_ne_nil _ (List.cons_ne_nil k []) heq
    · exact h.used i

theorem update (h : Indexes index m owner) {k : κ} {v w : ν} (hk : m.get k = some v)
    (hw : owner w = owner v) : Indexes index (m.set k w) owner where
  keys i := by
    rw [h.keys i]
    unfold keysWith set
    rw [dif_neg (by rw [hk]; nofun)]
    unfold replace
    dsimp only
    rw [List.filter_map, List.map_map]
    have hfilter : m.entries.filter ((fun e => decide (owner e.2 = i)) ∘
        fun e => if e.1 = k then (k, w) else e) =
        m.entries.filter fun e => decide (owner e.2 = i) := by
      refine List.filter_congr fun e he => ?_
      dsimp only [Function.comp]
      split
      · rename_i hek
        have hv : e.2 = v := by
          have hget := mem_entries.mp he
          rw [hek, hk] at hget
          exact (Option.some_inj.mp hget).symm
        rw [hv, ← hw]
      · rfl
    rw [hfilter]
    refine List.map_congr_left fun e _ => ?_
    dsimp only [Function.comp]
    split
    · rename_i hek
      exact hek
    · rfl
  used := h.used

theorem delete (h : Indexes index m owner) {k : κ} {v : ν} (hk : m.get k = some v) :
    Indexes (index.leave (owner v) k) (m.delete k) owner := by
  have hrest : ∀ i, (m.delete k).keysWith owner i =
      (m.keysWith owner i).filter fun j => j ≠ k := by
    intro i
    unfold keysWith InsertionMap.delete
    rw [List.filter_map, List.filter_filter, List.filter_filter]
    congr 1
    exact List.filter_congr fun e _ => Bool.and_comm _ _
  have hother : ∀ i, i ≠ owner v →
      (m.keysWith owner i).filter (fun j => j ≠ k) = m.keysWith owner i := by
    intro i hi
    rw [List.filter_eq_self]
    intro j hj
    refine decide_eq_true fun hjk => hi ?_
    obtain ⟨w, hw, rfl⟩ := mem_keysWith.mp hj
    rw [hjk, hk] at hw
    cases hw
    rfl
  unfold leave
  rw [h.keys]
  dsimp only
  split
  · rename_i hempty
    refine ⟨fun i => ?_, fun i => ?_⟩
    · rw [get_delete, hrest]
      split
      · rename_i hi
        rw [hi, List.isEmpty_iff.mp hempty]
        rfl
      · rename_i hi
        rw [h.keys, hother i hi]
    · rw [get_delete]
      split
      · rintro ⟨⟩
      · exact h.used i
  · rename_i hnonempty
    refine ⟨fun i => ?_, fun i => ?_⟩
    · rw [get_set, hrest]
      split
      · rename_i hi
        rw [hi]
        rfl
      · rename_i hi
        rw [h.keys, hother i hi]
    · rw [get_set]
      split
      · intro heq
        rw [Option.some_inj] at heq
        exact hnonempty (List.isEmpty_iff.mpr heq)
      · exact h.used i

end Indexes
end InsertionMap
end Lib
end PiCloud
