import Mathlib.Order.Basic

/-!
# Lib.LeafTree

Sequences as trees that carry their elements at the leaves, kept balanced by height.

* `Balanced`: at every node the heights of the two sides differ by at most one.
* `balance`: one node out of two balanced trees whose heights differ by at most two.
* `join`: concatenation, down the spine of the higher tree.
-/

namespace PiCloud
namespace Lib

inductive LeafTree (α : Type) where
  | leaf (a : α)
  | node (l r : LeafTree α)

namespace LeafTree

variable {α β : Type}

def height : LeafTree α → Nat
  | leaf _ => 1
  | node l r => max l.height r.height + 1

def leaves : LeafTree α → List α
  | leaf a => [a]
  | node l r => l.leaves ++ r.leaves

def Balanced : LeafTree α → Prop
  | leaf _ => True
  | node l r => l.height ≤ r.height + 1 ∧ r.height ≤ l.height + 1 ∧ l.Balanced ∧ r.Balanced

def fold (f : α → β) (g : β → β → β) : LeafTree α → β
  | leaf a => f a
  | node l r => g (l.fold f g) (r.fold f g)

def balance (l r : LeafTree α) : LeafTree α :=
  if l.height > r.height + 1 then
    match l with
    | leaf _ => node l r
    | node a b =>
      if a.height ≥ b.height then node a (node b r)
      else
        match b with
        | leaf _ => node l r
        | node c d => node (node a c) (node d r)
  else if r.height > l.height + 1 then
    match r with
    | leaf _ => node l r
    | node a b =>
      if b.height ≥ a.height then node (node l a) b
      else
        match a with
        | leaf _ => node l r
        | node c d => node (node l c) (node d b)
  else node l r

def join : LeafTree α → LeafTree α → LeafTree α
  | leaf a, leaf b => node (leaf a) (leaf b)
  | leaf a, node b c =>
    if (node b c).height > (leaf a).height + 1 then balance (join (leaf a) b) c
    else node (leaf a) (node b c)
  | node a b, leaf c =>
    if (node a b).height > (leaf c).height + 1 then balance a (join b (leaf c))
    else node (node a b) (leaf c)
  | node a b, node c d =>
    if (node a b).height > (node c d).height + 1 then balance a (join b (node c d))
    else if (node c d).height > (node a b).height + 1 then balance (join (node a b) c) d
    else node (node a b) (node c d)

theorem height_pos (t : LeafTree α) : 0 < t.height := by
  cases t <;> simp [height]

@[simp] theorem leaves_balance (l r : LeafTree α) :
    (balance l r).leaves = l.leaves ++ r.leaves := by
  unfold balance
  split
  · split
    · rfl
    · split
      · simp [leaves]
      · split
        · rfl
        · simp [leaves]
  · split
    · split
      · rfl
      · split
        · simp [leaves]
        · split
          · rfl
          · simp [leaves]
    · rfl

@[simp] theorem leaves_join (l r : LeafTree α) : (join l r).leaves = l.leaves ++ r.leaves := by
  fun_induction join l r with
  | case1 a b => rfl
  | case2 a b c h ih => simp [leaves, ih]
  | case3 a b c h => rfl
  | case4 a b c h ih => simp [leaves, ih]
  | case5 a b c h => rfl
  | case6 a b c d h ih => simp [leaves, ih]
  | case7 a b c d h h' ih => simp [leaves, ih]
  | case8 a b c d h h' => rfl

/-- The recursion of `join`, with the sides that have no children out of the way. -/
theorem join_eq (l r : LeafTree α) : join l r =
    if l.height > r.height + 1 then
      match l with
      | leaf _ => node l r
      | node a b => balance a (join b r)
    else if r.height > l.height + 1 then
      match r with
      | leaf _ => node l r
      | node a b => balance (join l a) b
    else node l r := by
  have hleaf : ∀ (a : α) (t : LeafTree α), ¬(leaf a).height > t.height + 1 := by
    intro a t
    simp only [height]
    omega
  cases l with
  | leaf a =>
    cases r with
    | leaf b => rw [join, if_neg (hleaf a _), if_neg (hleaf b _)]
    | node b c => rw [join, if_neg (hleaf a _)]
  | node a b =>
    cases r with
    | leaf c => rw [join, if_neg (hleaf c _)]
    | node c d => rw [join]

def Fits (l r t : LeafTree α) : Prop :=
  t.Balanced ∧ max l.height r.height ≤ t.height ∧ t.height ≤ max l.height r.height + 1

theorem balance_fits {l r : LeafTree α} (hl : l.Balanced) (hr : r.Balanced)
    (h1 : l.height ≤ r.height + 2) (h2 : r.height ≤ l.height + 2) : Fits l r (balance l r) := by
  have hlp := l.height_pos
  have hrp := r.height_pos
  unfold balance Fits
  split
  · cases l with
    | leaf a => simp only [height] at *; omega
    | node a b =>
      obtain ⟨h3, h4, ha, hb⟩ := hl
      simp only [height] at *
      split
      · simp only [Balanced, height, ha, hb, hr, and_true, true_and]
        omega
      · cases b with
        | leaf b =>
          have := a.height_pos
          simp only [height] at *
          omega
        | node c d =>
          obtain ⟨h5, h6, hc, hd⟩ := hb
          simp only [Balanced, height, ha, hc, hd, hr, and_true] at *
          omega
  · split
    · cases r with
      | leaf a => simp only [height] at *; omega
      | node a b =>
        obtain ⟨h3, h4, ha, hb⟩ := hr
        simp only [height] at *
        split
        · simp only [Balanced, height, hl, ha, hb, and_true]
          omega
        · cases a with
          | leaf a =>
            have := b.height_pos
            simp only [height] at *
            omega
          | node c d =>
            obtain ⟨h5, h6, hc, hd⟩ := ha
            simp only [Balanced, height, hl, hc, hd, hb, and_true] at *
            omega
    · simp only [Balanced, height, hl, hr, and_true]
      omega

theorem node_fits {l r : LeafTree α} (hl : l.Balanced) (hr : r.Balanced)
    (h1 : ¬l.height > r.height + 1) (h2 : ¬r.height > l.height + 1) : Fits l r (node l r) := by
  simp only [Fits, Balanced, height, hl, hr, and_true]
  omega

theorem balance_close {l r : LeafTree α} (h1 : ¬l.height > r.height + 1)
    (h2 : ¬r.height > l.height + 1) : balance l r = node l r := by
  unfold balance
  rw [if_neg h1, if_neg h2]

/-- The left side descended: `t` stands for the rest of it beside the right side. -/
theorem descend_left {a b r t : LeafTree α} (hn : (node a b).Balanced)
    (h : (node a b).height > r.height + 1) (ht : Fits b r t) :
    Fits (node a b) r (balance a t) := by
  obtain ⟨h1, h2, ha, hb⟩ := hn
  obtain ⟨hbt, h3, h4⟩ := ht
  simp only [height] at h
  obtain ⟨hbal, h5, h6⟩ := balance_fits ha hbt (by omega) (by omega)
  refine ⟨hbal, ?_, by simp only [height]; omega⟩
  by_cases hclose : t.height > a.height + 1
  · simp only [height]
    omega
  · rw [balance_close (by omega) hclose]
    simp only [height]
    omega

theorem descend_right {l c d t : LeafTree α} (hn : (node c d).Balanced)
    (h : (node c d).height > l.height + 1) (ht : Fits l c t) :
    Fits l (node c d) (balance t d) := by
  obtain ⟨h1, h2, hc, hd⟩ := hn
  obtain ⟨hbt, h3, h4⟩ := ht
  simp only [height] at h
  obtain ⟨hbal, h5, h6⟩ := balance_fits hbt hd (by omega) (by omega)
  refine ⟨hbal, ?_, by simp only [height]; omega⟩
  by_cases hclose : t.height > d.height + 1
  · simp only [height]
    omega
  · rw [balance_close hclose (by omega)]
    simp only [height]
    omega

theorem join_fits {l r : LeafTree α} (hl : l.Balanced) (hr : r.Balanced) :
    Fits l r (join l r) := by
  fun_induction join l r with
  | case1 a b => exact node_fits hl hr (by simp [height]) (by simp [height])
  | case2 a b c h ih => exact descend_right hr h (ih hl hr.2.2.1)
  | case3 a b c h =>
    have := b.height_pos
    exact node_fits hl hr (by simp only [height]; omega) h
  | case4 a b c h ih => exact descend_left hl h (ih hl.2.2.2 hr)
  | case5 a b c h =>
    have := a.height_pos
    exact node_fits hl hr h (by simp only [height]; omega)
  | case6 a b c d h ih => exact descend_left hl h (ih hl.2.2.2 hr)
  | case7 a b c d h h' ih => exact descend_right hr h' (ih hl hr.2.2.1)
  | case8 a b c d h h' => exact node_fits hl hr h h'

end LeafTree

end Lib
end PiCloud
