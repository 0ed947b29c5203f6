/-!
# Lib.Search

Binary search for the first position at which a predicate that is true and then false turns false.
-/

namespace PiCloud
namespace Lib

/-- The loop `while (lo < hi)`; `fuel` bounds its rounds. -/
def lowerBound (below : Nat → Bool) : Nat → Nat → Nat → Nat
  | 0, lo, _ => lo
  | fuel + 1, lo, hi =>
    if lo < hi then
      let mid := (lo + hi) / 2
      if below mid then lowerBound below fuel (mid + 1) hi else lowerBound below fuel lo mid
    else lo

theorem lowerBound_eq {below : Nat → Bool} {k : Nat} (htrue : ∀ i, i < k → below i = true)
    (hfalse : ∀ i, k ≤ i → below i = false) :
    ∀ fuel lo hi : Nat, lo ≤ k → k ≤ hi → hi - lo ≤ fuel → lowerBound below fuel lo hi = k := by
  intro fuel
  induction fuel with
  | zero => intro lo hi hlo hhi hf; simp only [lowerBound]; omega
  | succ fuel ih =>
    intro lo hi hlo hhi hf
    simp only [lowerBound]
    split
    · split
      · rename_i hlt hmid
        have hk : (lo + hi) / 2 < k := by
          by_cases hk : (lo + hi) / 2 < k
          · exact hk
          · rw [hfalse _ (by omega)] at hmid; cases hmid
        exact ih _ _ (by omega) hhi (by omega)
      · rename_i hlt hmid
        have hk : k ≤ (lo + hi) / 2 := by
          by_cases hk : (lo + hi) / 2 < k
          · exact absurd (htrue _ hk) hmid
          · omega
        exact ih _ _ hlo hk (by omega)
    · omega

end Lib
end PiCloud
