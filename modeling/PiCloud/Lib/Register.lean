import Mathlib.Order.Basic
import Mathlib.Data.List.Basic

/-!
# Lib.Register

A register that is written through a log: a write is taken at once, or stays undecided until its
transaction ends. The value is the newest write taken, in the order of the log.

* `current`, `resolve`: the value, and the end of one undecided write.
* `AtLeast n`: the value has reached `n`, however the undecided writes end.
* `Rising`: no write is below an earlier one; the end of a transaction then never lowers the value.
-/

namespace PiCloud
namespace Lib
namespace Register

inductive Status where
  | taken
  | undecided
  | dropped
deriving DecidableEq

structure Entry (α : Type) where
  value : α
  status : Status := .taken

variable {α : Type}

def current : List (Entry α) → Option α
  | [] => none
  | e :: log => if e.status = .taken then some e.value else current log

def Entry.resolve (e : Entry α) (keep : Bool) : Entry α :=
  if e.status = .undecided then { e with status := if keep then .taken else .dropped } else e

/-- The end of the transaction of entry `i`, where it has not ended yet. -/
def resolve (log : List (Entry α)) (i : Nat) (keep : Bool) : List (Entry α) :=
  log.modify i (fun e => e.resolve keep)

def Stable (log : List (Entry α)) : Prop := ∀ e ∈ log, e.status ≠ .undecided

instance (log : List (Entry α)) : Decidable (Stable log) := by
  unfold Stable
  infer_instance

@[simp] theorem Entry.resolve_value (e : Entry α) (keep : Bool) :
    (e.resolve keep).value = e.value := by
  unfold Entry.resolve
  split <;> rfl

theorem Entry.resolve_taken {e : Entry α} (h : e.status = .taken) (keep : Bool) :
    e.resolve keep = e := by
  simp [Entry.resolve, h]

theorem Entry.resolve_dropped {e : Entry α} (h : e.status = .dropped) (keep : Bool) :
    e.resolve keep = e := by
  simp [Entry.resolve, h]

@[simp] theorem resolve_nil (i : Nat) (keep : Bool) : resolve ([] : List (Entry α)) i keep = [] := by
  cases i <;> rfl

@[simp] theorem resolve_zero (e : Entry α) (log : List (Entry α)) (keep : Bool) :
    resolve (e :: log) 0 keep = e.resolve keep :: log := rfl

@[simp] theorem resolve_succ (e : Entry α) (log : List (Entry α)) (i : Nat) (keep : Bool) :
    resolve (e :: log) (i + 1) keep = e :: resolve log i keep := rfl

theorem mem_resolve {log : List (Entry α)} {i : Nat} {keep : Bool} {e : Entry α}
    (h : e ∈ resolve log i keep) : ∃ e' ∈ log, e = e' ∨ e = e'.resolve keep := by
  induction log generalizing i with
  | nil => simp at h
  | cons a log ih =>
    cases i with
    | zero =>
      rw [resolve_zero, List.mem_cons] at h
      cases h with
      | inl h => exact ⟨a, by simp, .inr h⟩
      | inr h => exact ⟨e, by simp [h], .inl rfl⟩
    | succ i =>
      rw [resolve_succ, List.mem_cons] at h
      cases h with
      | inl h => exact ⟨a, by simp, .inl h⟩
      | inr h =>
        obtain ⟨e', he', hor⟩ := ih h
        exact ⟨e', by simp [he'], hor⟩

theorem current_mem {v : α} {log : List (Entry α)} (h : current log = some v) :
    ∃ e ∈ log, e.status = .taken ∧ e.value = v := by
  induction log with
  | nil => cases h
  | cons e log ih =>
    unfold current at h
    split at h
    · rename_i he
      exact ⟨e, by simp, he, by simpa using h⟩
    · obtain ⟨e', he', h'⟩ := ih h
      exact ⟨e', by simp [he'], h'⟩

section Order

variable [LE α]

/-- The value has reached `n`, and no end of an open transaction takes that back. -/
def AtLeast (n : α) : List (Entry α) → Prop
  | [] => False
  | e :: log =>
    match e.status with
    | .taken => n ≤ e.value
    | .undecided => n ≤ e.value ∧ AtLeast n log
    | .dropped => AtLeast n log

theorem AtLeast.current {n : α} {log : List (Entry α)} (h : AtLeast n log) :
    ∃ v, Register.current log = some v ∧ n ≤ v := by
  induction log with
  | nil => cases h
  | cons e log ih =>
    unfold AtLeast at h
    unfold Register.current
    split at h
    · rename_i he
      exact ⟨e.value, by rw [if_pos he], h⟩
    · rename_i he
      simpa [he] using ih h.2
    · rename_i he
      simpa [he] using ih h

theorem AtLeast.take {n v : α} (log : List (Entry α)) (hv : n ≤ v) :
    AtLeast n ({ value := v } :: log) := hv

theorem AtLeast.open {n v : α} {log : List (Entry α)} (h : AtLeast n log) (hv : n ≤ v) :
    AtLeast n ({ value := v, status := .undecided } :: log) := ⟨hv, h⟩

theorem AtLeast.resolve {n : α} {log : List (Entry α)} (h : AtLeast n log) (i : Nat)
    (keep : Bool) : AtLeast n (Register.resolve log i keep) := by
  induction log generalizing i with
  | nil => cases h
  | cons e log ih =>
    cases i with
    | zero =>
      cases hs : e.status with
      | taken => rwa [resolve_zero, Entry.resolve_taken hs]
      | dropped => rwa [resolve_zero, Entry.resolve_dropped hs]
      | undecided =>
        simp only [AtLeast, hs] at h
        cases keep
        · simpa [Entry.resolve, hs, AtLeast] using h.2
        · simpa [Entry.resolve, hs, AtLeast] using h.1
    | succ i =>
      rw [resolve_succ]
      unfold AtLeast at h ⊢
      cases hs : e.status with
      | taken => simpa only [hs] using h
      | undecided =>
        simp only [hs] at h ⊢
        exact ⟨h.1, ih h.2 i⟩
      | dropped =>
        simp only [hs] at h ⊢
        exact ih h i

/-- Every write that was not dropped is below `v`. -/
def Below (v : α) (log : List (Entry α)) : Prop := ∀ e ∈ log, e.status ≠ .dropped → e.value ≤ v

theorem Below.resolve {v : α} {log : List (Entry α)} (h : Below v log) (i : Nat) (keep : Bool) :
    Below v (Register.resolve log i keep) := by
  intro e he hne
  obtain ⟨e', he', hor⟩ := mem_resolve he
  cases hor with
  | inl heq =>
    subst heq
    exact h e he' hne
  | inr heq =>
    subst heq
    rw [Entry.resolve_value]
    refine h e' he' (fun hd => hne ?_)
    rw [Entry.resolve_dropped hd, hd]

def Rising : List (Entry α) → Prop
  | [] => True
  | e :: log => (e.status ≠ .dropped → Below e.value log) ∧ Rising log

theorem Rising.resolve {log : List (Entry α)} (h : Rising log) (i : Nat) (keep : Bool) :
    Rising (Register.resolve log i keep) := by
  induction log generalizing i with
  | nil => simpa using h
  | cons e log ih =>
    cases i with
    | zero =>
      rw [resolve_zero]
      refine ⟨fun hne => ?_, h.2⟩
      rw [Entry.resolve_value]
      refine h.1 (fun hd => hne ?_)
      rw [Entry.resolve_dropped hd, hd]
    | succ i => exact ⟨fun hne => (h.1 hne).resolve i keep, ih h.2 i⟩

end Order

section Preorder

variable [Preorder α]

theorem Below.mono {v w : α} {log : List (Entry α)} (h : Below v log) (hle : v ≤ w) :
    Below w log :=
  fun e he hne => (h e he hne).trans hle

theorem Below.current_le {v w : α} {log : List (Entry α)} (h : Below w log)
    (hc : current log = some v) : v ≤ w := by
  obtain ⟨e, he, ht, hv⟩ := current_mem hc
  exact hv ▸ h e he (by simp [ht])

theorem Rising.below_current {log : List (Entry α)} (h : Rising log) (hs : Stable log) :
    ∀ w, (∀ v, current log = some v → v ≤ w) → Below w log := by
  induction log with
  | nil => exact fun _ _ e he => nomatch he
  | cons e log ih =>
    intro w hw
    have hs' : Stable log := fun a ha => hs a (by simp [ha])
    cases he : e.status with
    | undecided => exact absurd he (hs e (by simp))
    | taken =>
      have hew : e.value ≤ w := hw e.value (by simp [current, he])
      intro a ha hne
      cases List.mem_cons.mp ha with
      | inl heq => exact heq ▸ hew
      | inr hmem => exact (h.1 (by simp [he]) a hmem hne).trans hew
    | dropped =>
      intro a ha hne
      cases List.mem_cons.mp ha with
      | inl heq => exact absurd (heq ▸ he) hne
      | inr hmem => exact ih h.2 hs' w (fun v hv => hw v (by simpa [current, he] using hv)) a hmem hne

theorem Rising.le_resolve {log : List (Entry α)} (h : Rising log) (i : Nat) (keep : Bool) {v : α}
    (hv : current log = some v) : ∃ w, current (Register.resolve log i keep) = some w ∧ v ≤ w := by
  induction log generalizing i with
  | nil => cases hv
  | cons e log ih =>
    cases i with
    | zero =>
      cases hs : e.status with
      | taken => exact ⟨v, by rwa [resolve_zero, Entry.resolve_taken hs], le_refl v⟩
      | dropped => exact ⟨v, by rwa [resolve_zero, Entry.resolve_dropped hs], le_refl v⟩
      | undecided =>
        have hrest : current log = some v := by simpa [current, hs] using hv
        cases keep
        · exact ⟨v, by simpa [current, Entry.resolve, hs] using hrest, le_refl v⟩
        · exact ⟨e.value, by simp [current, Entry.resolve, hs],
            (h.1 (by simp [hs])).current_le hrest⟩
    | succ i =>
      rw [resolve_succ]
      unfold current at hv ⊢
      split
      · rename_i he
        rw [if_pos he] at hv
        exact ⟨v, hv, le_refl v⟩
      · rename_i he
        rw [if_neg he] at hv
        exact ih h.2 i hv

end Preorder

end Register
end Lib
end PiCloud
