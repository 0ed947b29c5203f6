import Mathlib.Data.List.Basic

/-!
# Lib.Grouping

A group that grows along a list: the next element joins while a test on the group so far and the
element says so.

* `takeGroup`: the group, and what is left of the list.
* `takeGroup_append`: nothing is lost or moved.
* `takeGroup_invariant`: what the first group satisfies and every joining element keeps.
-/

namespace PiCloud
namespace Lib

variable {α : Type}

/-- The loop `while (joins) group.push(next)`. -/
def takeGroup (joins : List α → α → Bool) (group : List α) : List α → List α × List α
  | [] => (group, [])
  | next :: rest =>
    if joins group next then takeGroup joins (group ++ [next]) rest else (group, next :: rest)

variable (joins : List α → α → Bool)

theorem takeGroup_append (group items : List α) :
    (takeGroup joins group items).1 ++ (takeGroup joins group items).2 = group ++ items := by
  induction items generalizing group with
  | nil => rfl
  | cons next rest ih =>
    unfold takeGroup
    split
    · rw [ih, List.append_assoc, List.singleton_append]
    · rfl

theorem takeGroup_length (group items : List α) :
    (takeGroup joins group items).2.length ≤ items.length := by
  induction items generalizing group with
  | nil => exact Nat.le_refl _
  | cons next rest ih =>
    unfold takeGroup
    split
    · have := ih (group ++ [next])
      simp only [List.length_cons]
      omega
    · exact Nat.le_refl _

variable {joins}

theorem takeGroup_invariant {P : List α → Prop} {group : List α} (hgroup : P group)
    (hjoins : ∀ g next, P g → joins g next = true → P (g ++ [next])) (items : List α) :
    P (takeGroup joins group items).1 := by
  induction items generalizing group with
  | nil => exact hgroup
  | cons next rest ih =>
    unfold takeGroup
    split
    · rename_i hnext
      exact ih (hjoins group next hgroup hnext)
    · exact hgroup

end Lib
end PiCloud
