import Mathlib.MeasureTheory.Integral.Bochner.Set
import Mathlib.MeasureTheory.Measure.Lebesgue.Basic

/-!
# Lib.Tiling

Intervals of whole numbers that follow each other, and the integral of a function that is constant
on each of them.

* `pairs`: the neighbours in a list.
* `Tiles a b l`: the intervals of `l` lead from `a` to `b`, with no gap and no overlap.
* `tiles_pairs`: the neighbours in a sorted list do.
* `Tiles.exists_mem`: each instant is in one of them.
* `Tiles.integral`: the integral over all of them, as a sum.
-/

namespace PiCloud
namespace Lib

def pairs {α : Type} (l : List α) : List (α × α) := l.zip l.tail

@[simp] theorem pairs_cons_cons {α : Type} (a b : α) (l : List α) :
    pairs (a :: b :: l) = (a, b) :: pairs (b :: l) := rfl

theorem pairs_consecutive {l : List Int} (h : l.Pairwise (· < ·)) {p : Int × Int} (hp : p ∈ pairs l) :
    p.1 < p.2 ∧ ∀ c ∈ l, p.1 < c → p.2 ≤ c := by
  induction l with
  | nil => cases hp
  | cons a l ih =>
    cases l with
    | nil => cases hp
    | cons b l =>
      rw [List.pairwise_cons] at h
      rw [pairs_cons_cons] at hp
      obtain rfl | hp := List.mem_cons.mp hp
      · refine ⟨h.1 b List.mem_cons_self, fun c hc hac => ?_⟩
        obtain rfl | hc := List.mem_cons.mp hc
        · exact absurd hac (lt_irrefl _)
        · obtain rfl | hc := List.mem_cons.mp hc
          · exact le_rfl
          · exact ((List.pairwise_cons.mp h.2).1 c hc).le
      · obtain ⟨hlt, hnext⟩ := ih h.2 hp
        have hmem : p.1 ∈ b :: l := (List.of_mem_zip hp).1
        refine ⟨hlt, fun c hc hpc => ?_⟩
        obtain rfl | hc := List.mem_cons.mp hc
        · exact absurd (h.1 p.1 hmem) (not_lt.mpr hpc.le)
        · exact hnext c hc hpc

inductive Tiles : Int → Int → List (Int × Int) → Prop where
  | nil (a : Int) : Tiles a a []
  | cons {a b c : Int} {l : List (Int × Int)} : a ≤ b → Tiles b c l → Tiles a c ((a, b) :: l)

theorem tiles_pairs {l : List Int} (h : l.Pairwise (· < ·)) {a b : Int} (ha : a ∈ l) (hb : b ∈ l)
    (hle : ∀ c ∈ l, a ≤ c ∧ c ≤ b) : Tiles a b (pairs l) := by
  induction l generalizing a with
  | nil => cases ha
  | cons c l ih =>
    have hfirst : a = c := by
      obtain rfl | ha := List.mem_cons.mp ha
      · rfl
      · exact absurd ((List.pairwise_cons.mp h).1 a ha) (not_lt.mpr (hle c List.mem_cons_self).1)
    subst hfirst
    cases l with
    | nil =>
      rw [List.mem_singleton.mp hb]
      exact .nil a
    | cons d l =>
      rw [List.pairwise_cons] at h
      have hlt := h.1 d List.mem_cons_self
      refine .cons hlt.le (ih h.2 List.mem_cons_self ?_ fun c hc => ⟨?_, ?_⟩)
      · obtain rfl | hb := List.mem_cons.mp hb
        · exact absurd hlt (not_lt.mpr (hle d (by simp)).2)
        · exact hb
      · obtain rfl | hc := List.mem_cons.mp hc
        · exact le_rfl
        · exact ((List.pairwise_cons.mp h.2).1 c hc).le
      · exact (hle c (List.mem_cons_of_mem _ hc)).2

namespace Tiles

variable {a b : Int} {l : List (Int × Int)}

theorem le (h : Tiles a b l) : a ≤ b := by
  induction h with
  | nil a => exact le_rfl
  | cons hle _ ih => exact hle.trans ih

theorem bounds (h : Tiles a b l) {p : Int × Int} (hp : p ∈ l) : a ≤ p.1 ∧ p.1 ≤ p.2 ∧ p.2 ≤ b := by
  induction h with
  | nil a => cases hp
  | cons hle h ih =>
    obtain rfl | hp := List.mem_cons.mp hp
    · exact ⟨le_rfl, hle, h.le⟩
    · exact ⟨hle.trans (ih hp).1, (ih hp).2⟩

theorem exists_mem (h : Tiles a b l) {x : ℝ} (ha : a ≤ x) (hb : x < b) :
    ∃ p ∈ l, (p.1 : ℝ) ≤ x ∧ x < p.2 := by
  induction h with
  | nil a => exact absurd hb (not_lt.mpr ha)
  | cons hle htail ih =>
    rename_i a c b l
    by_cases hx : x < c
    · exact ⟨(a, c), List.mem_cons_self, ha, hx⟩
    · obtain ⟨p, hp, hpx⟩ := ih (not_lt.mp hx) hb
      exact ⟨p, List.mem_cons_of_mem _ hp, hpx⟩

open MeasureTheory in
/-- A function with the value `c p` on each interval `p` has the integral of a sum. -/
theorem integral (h : Tiles a b l) {f : ℝ → ℝ} {c : Int × Int → ℝ}
    (hf : ∀ p ∈ l, ∀ x : ℝ, (p.1 : ℝ) ≤ x → x < p.2 → f x = c p) :
    IntegrableOn f (Set.Ico (a : ℝ) b) ∧
      ∫ x in Set.Ico (a : ℝ) b, f x = (l.map fun p => ((p.2 : ℝ) - p.1) * c p).sum := by
  induction h with
  | nil a => simp
  | cons hle h ih =>
    rename_i a d b l
    obtain ⟨hrest, hsum⟩ := ih fun p hp => hf p (List.mem_cons_of_mem _ hp)
    have hconst : Set.EqOn f (fun _ => c (a, d)) (Set.Ico (a : ℝ) d) :=
      fun x hx => hf (a, d) List.mem_cons_self x hx.1 hx.2
    have hfirst : IntegrableOn f (Set.Ico (a : ℝ) d) := by
      refine (integrableOn_congr_fun hconst measurableSet_Ico).mpr ?_
      exact integrableOn_const (by simp)
    have had : (a : ℝ) ≤ d := Int.cast_le.mpr hle
    have hdb : (d : ℝ) ≤ b := Int.cast_le.mpr h.le
    have hunion : Set.Ico (a : ℝ) b = Set.Ico (a : ℝ) d ∪ Set.Ico (d : ℝ) b :=
      (Set.Ico_union_Ico_eq_Ico had hdb).symm
    rw [hunion]
    refine ⟨hfirst.union hrest, ?_⟩
    have hdisjoint : Disjoint (Set.Ico (a : ℝ) d) (Set.Ico (d : ℝ) b) :=
      Set.Ico_disjoint_Ico_same
    rw [setIntegral_union hdisjoint measurableSet_Ico hfirst hrest, hsum, List.map_cons,
      List.sum_cons, setIntegral_congr_fun measurableSet_Ico hconst, setIntegral_const]
    simp [Measure.real, had]

end Tiles
end Lib
end PiCloud
