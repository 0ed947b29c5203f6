import Mathlib.Data.List.Dedup
import Mathlib.Logic.Function.Basic

/-!
# Lib.Table

A finite table of rows by key, as an SQL statement sees it: one row is read, written or
changed by its key, all rows are changed at once, or the rows are scanned.

* `Table`: a lookup, and a list of keys that covers it.
* `rows`, `scan`, `entries`: the rows by a list of keys, each row once, and each with its key.
* `set`, `modify`, `mapRows`: insert or replace, update where the key is, update everywhere.
-/

namespace PiCloud
namespace Lib

structure Table (κ ρ : Type) where
  keys : List κ
  get : κ → Option ρ
  covered : ∀ k r, get k = some r → k ∈ keys

namespace Table

variable {κ ρ : Type}

def empty : Table κ ρ where
  keys := []
  get _ := none
  covered := nofun

def rows (t : Table κ ρ) : List ρ := t.keys.filterMap t.get

theorem mem_rows {t : Table κ ρ} {r : ρ} : r ∈ t.rows ↔ ∃ k, t.get k = some r := by
  unfold rows
  rw [List.mem_filterMap]
  constructor
  · rintro ⟨k, _, hk⟩
    exact ⟨k, hk⟩
  · rintro ⟨k, hk⟩
    exact ⟨k, t.covered k r hk, hk⟩

section Keys

variable [DecidableEq κ]

def set (t : Table κ ρ) (k : κ) (r : ρ) : Table κ ρ where
  keys := k :: t.keys
  get := Function.update t.get k (some r)
  covered j q h := by
    by_cases hjk : j = k
    · exact List.mem_cons.mpr (.inl hjk)
    · rw [Function.update_of_ne hjk] at h
      exact List.mem_cons_of_mem _ (t.covered j q h)

theorem get_set (t : Table κ ρ) (k j : κ) (r : ρ) :
    (t.set k r).get j = if j = k then some r else t.get j :=
  Function.update_apply ..

@[simp] theorem get_set_self (t : Table κ ρ) (k : κ) (r : ρ) : (t.set k r).get k = some r := by
  rw [get_set, if_pos rfl]

def scan (t : Table κ ρ) : List ρ := t.keys.dedup.filterMap t.get

theorem mem_scan {t : Table κ ρ} {r : ρ} : r ∈ t.scan ↔ ∃ k, t.get k = some r := by
  unfold scan
  rw [List.mem_filterMap]
  constructor
  · rintro ⟨k, _, hk⟩
    exact ⟨k, hk⟩
  · rintro ⟨k, hk⟩
    exact ⟨k, List.mem_dedup.mpr (t.covered k r hk), hk⟩

theorem nodup_scan {t : Table κ ρ} {key : ρ → κ} (h : ∀ k r, t.get k = some r → key r = k) :
    (t.scan.map key).Nodup := by
  unfold scan
  rw [List.map_filterMap]
  refine List.Nodup.filterMap ?_ (List.nodup_dedup _)
  intro i j k hi hj
  obtain ⟨r, hr, rfl⟩ := Option.map_eq_some_iff.mp hi
  obtain ⟨q, hq, hk⟩ := Option.map_eq_some_iff.mp hj
  rw [← h i r hr, ← h j q hq, hk]

def entries (t : Table κ ρ) : List (κ × ρ) :=
  t.keys.dedup.filterMap fun k => (t.get k).map (k, ·)

theorem mem_entries {t : Table κ ρ} {k : κ} {r : ρ} : (k, r) ∈ t.entries ↔ t.get k = some r := by
  unfold entries
  rw [List.mem_filterMap]
  constructor
  · rintro ⟨j, _, hj⟩
    obtain ⟨q, hq, heq⟩ := Option.map_eq_some_iff.mp hj
    cases heq
    exact hq
  · intro hr
    exact ⟨k, List.mem_dedup.mpr (t.covered k r hr), by rw [hr, Option.map_some]⟩

theorem nodup_entries (t : Table κ ρ) : (t.entries.map Prod.fst).Nodup := by
  unfold entries
  rw [List.map_filterMap]
  refine List.Nodup.filterMap ?_ (List.nodup_dedup _)
  intro i j k hi hj
  obtain ⟨e, he, hek⟩ := Option.map_eq_some_iff.mp hi
  obtain ⟨f, hf, hfk⟩ := Option.map_eq_some_iff.mp hj
  obtain ⟨r, -, rfl⟩ := Option.map_eq_some_iff.mp he
  obtain ⟨q, -, rfl⟩ := Option.map_eq_some_iff.mp hf
  exact hek.trans hfk.symm

/-- `update … where` the key is `k`. -/
def modify (t : Table κ ρ) (k : κ) (f : ρ → ρ) : Table κ ρ :=
  match t.get k with
  | some r => t.set k (f r)
  | none => t

theorem get_modify (t : Table κ ρ) (k j : κ) (f : ρ → ρ) :
    (t.modify k f).get j = if j = k then (t.get k).map f else t.get j := by
  unfold modify
  cases h : t.get k with
  | none =>
    by_cases hjk : j = k
    · rw [if_pos hjk, hjk, h, Option.map_none]
    · rw [if_neg hjk]
  | some r => exact get_set ..

theorem get_modify_of_get {t : Table κ ρ} {k : κ} {r : ρ} (h : t.get k = some r) (f : ρ → ρ)
    (j : κ) : (t.modify k f).get j = if j = k then some (f r) else t.get j := by
  rw [get_modify, h, Option.map_some]

@[simp] theorem get_modify_self (t : Table κ ρ) (k : κ) (f : ρ → ρ) :
    (t.modify k f).get k = (t.get k).map f := by
  rw [get_modify, if_pos rfl]

end Keys

def mapRows (t : Table κ ρ) (f : κ → ρ → ρ) : Table κ ρ where
  keys := t.keys
  get k := (t.get k).map (f k)
  covered k r h := by
    obtain ⟨q, hq, _⟩ := Option.map_eq_some_iff.mp h
    exact t.covered k q hq

@[simp] theorem get_mapRows (t : Table κ ρ) (f : κ → ρ → ρ) (k : κ) :
    (t.mapRows f).get k = (t.get k).map (f k) := rfl

end Table

end Lib
end PiCloud
