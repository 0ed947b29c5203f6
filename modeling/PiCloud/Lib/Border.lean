import Mathlib.Data.List.Basic
import Mathlib.Data.List.TakeDrop
import Mathlib.Order.Bounds.Defs

/-!
# Lib.Border

The prefix function of a pattern and the scan that uses it (Knuth, Morris and Pratt), as loops
over a table. `overlap previous next` is the length of the longest suffix of `previous` that is a
prefix of `next`.

* `Border xs n k`: the first `k` elements of `xs` end its first `n`.
* `fallback_spec`: falling back along longest proper borders passes no accepted border.
* `prefixTable_border`: every entry of the table is the length of the longest proper border.
* `overlap_greatest`: what the scan returns is the largest overlap.
-/

namespace PiCloud
namespace Lib

variable {α : Type}

/-- Fall back along `table` while the candidate length `j` is positive and not accepted. Every
table entry is smaller than its index plus one, so `j` itself is enough fuel. -/
def fallback (table : List Nat) (accept : Nat → Bool) : Nat → Nat → Nat
  | 0, j => j
  | fuel + 1, j =>
    if 0 < j ∧ accept j = false then fallback table accept fuel (table.getD (j - 1) 0) else j

/-- One round of the table loop: the table so far, the current border length, and the index. -/
def prefixStep [DecidableEq α] (next : List α) (st : List Nat × Nat) (i : Nat) : List Nat × Nat :=
  let j := fallback st.1 (fun k => next[i]? == next[k]?) st.2 st.2
  let j := if next[i]? = next[j]? then j + 1 else j
  (st.1.set i j, j)

def prefixTable [DecidableEq α] (next : List α) : List Nat :=
  ((List.range' 1 (next.length - 1)).foldl (prefixStep next)
    (List.replicate next.length 0, 0)).1

/-- One round of the scan: extend the match by `point`, falling back first where it must. -/
def matchStep [DecidableEq α] (next : List α) (table : List Nat) (matched : Nat) (point : α) : Nat :=
  let matched := fallback table (fun k => k ≠ next.length && next[k]? == some point) matched matched
  if next[matched]? = some point then matched + 1 else matched

def overlap [DecidableEq α] (previous next : List α) : Nat :=
  if next = [] then 0 else previous.foldl (matchStep next (prefixTable next)) 0

/-- The first `k` elements of `xs` end its first `n`. -/
def Border (xs : List α) (n k : Nat) : Prop := k ≤ n ∧ xs.take k <:+ xs.take n

theorem Border.trans {xs : List α} {n m k : Nat} (h₁ : Border xs n m) (h₂ : Border xs m k) :
    Border xs n k :=
  ⟨Nat.le_trans h₂.1 h₁.1, h₂.2.trans h₁.2⟩

theorem border_zero (xs : List α) (n : Nat) : Border xs n 0 :=
  ⟨Nat.zero_le n, by simp⟩

/-- Of two beginnings that end the same list, the shorter one ends the longer. -/
theorem Border.of_suffix {xs ys : List α} {n k : Nat} (hn : xs.take n <:+ ys)
    (hk : xs.take k <:+ ys) (hkn : k ≤ n) : Border xs n k :=
  ⟨hkn, List.suffix_of_suffix_length_le hk hn (by simp only [List.length_take]; omega)⟩

theorem take_succ_suffix {xs ys : List α} {k : Nat} {a : α} (h : xs.take k <:+ ys)
    (hk : xs[k]? = some a) : xs.take (k + 1) <:+ ys ++ [a] := by
  obtain ⟨t, rfl⟩ := h
  rw [List.take_add_one, hk]
  exact ⟨t, by simp⟩

/-- A beginning one longer ends with the same element, and is one longer than what ends there. -/
theorem suffix_of_take_succ {xs ys : List α} {k : Nat} {a : α}
    (h : xs.take (k + 1) <:+ ys ++ [a]) (hk : k < xs.length) :
    xs.take k <:+ ys ∧ xs[k]? = some a := by
  rw [List.take_add_one, List.getElem?_eq_getElem hk] at h
  obtain ⟨t, ht⟩ := h
  rw [Option.toList_some, ← List.append_assoc] at ht
  obtain ⟨hys, ha⟩ := List.append_inj' ht rfl
  rw [List.getElem?_eq_getElem hk]
  exact ⟨⟨t, hys⟩, by simpa using ha⟩

/-- `k` is the longest border of the first `n` elements other than all of them. -/
structure Longest (xs : List α) (n k : Nat) : Prop where
  lt : k < n
  border : Border xs n k
  le : ∀ m, m < n → Border xs n m → m ≤ k

/-- `table` holds the longest proper border length at every index below `n`. -/
def Borders (xs : List α) (table : List Nat) (n : Nat) : Prop :=
  ∀ k, k < n → Longest xs (k + 1) (table.getD k 0)

/-- Falling back stops at the longest border that is accepted, or at none. -/
theorem fallback_spec {xs : List α} {table : List Nat} (accept : Nat → Bool) :
    ∀ (fuel j : Nat), j ≤ fuel → Borders xs table j →
      Border xs j (fallback table accept fuel j) ∧
        (0 < fallback table accept fuel j → accept (fallback table accept fuel j) = true) ∧
        ∀ b, Border xs j b → accept b = true → b ≤ fallback table accept fuel j := by
  intro fuel
  induction fuel with
  | zero =>
    intro j hj _
    have : j = 0 := by omega
    subst this
    exact ⟨border_zero xs 0, fun h => absurd h (by simp [fallback]), fun b hb _ => hb.1⟩
  | succ fuel ih =>
    intro j hj htab
    simp only [fallback]
    split
    · rename_i hcond
      obtain ⟨hlt, ht, hmax⟩ := htab (j - 1) (by omega)
      have hj1 : j - 1 + 1 = j := by omega
      rw [hj1] at ht hmax
      obtain ⟨hb', hacc, hle⟩ := ih (table.getD (j - 1) 0) (by omega)
        (fun k hk => htab k (by omega))
      refine ⟨ht.trans hb', hacc, fun b hb hb_acc => ?_⟩
      -- `j` itself is refused, so `b` is a proper border and one of the table's entry too.
      have hne : b ≠ j := by
        rintro rfl
        rw [hb_acc] at hcond
        cases hcond.2
      have hbj : b < j := by have := hb.1; omega
      exact hle b (Border.of_suffix ht.2 hb.2 (hmax b hbj hb)) hb_acc
    · rename_i hcond
      refine ⟨⟨Nat.le_refl j, List.suffix_refl _⟩, fun hpos => ?_, fun b hb _ => hb.1⟩
      by_contra hne
      exact hcond ⟨hpos, by simpa using hne⟩

/-- One round of the table loop fills entry `i` and keeps the entries below it. -/
theorem prefixStep_spec [DecidableEq α] {next : List α} {st : List Nat × Nat} {i : Nat}
    (hlt : i < next.length) (hlen : st.1.length = next.length) (hj : Longest next i st.2)
    (htab : Borders next st.1 i) :
    (prefixStep next st i).1.length = next.length ∧
      Longest next (i + 1) (prefixStep next st i).2 ∧
      Borders next (prefixStep next st i).1 (i + 1) := by
  have htab' : Borders next st.1 st.2 := fun k hk => htab k (Nat.lt_trans hk hj.lt)
  obtain ⟨hfb, hacc, hmax⟩ := fallback_spec (fun k => next[i]? == next[k]?) st.2 st.2
    (Nat.le_refl _) htab'
  simp only [prefixStep]
  generalize fallback st.1 (fun k => next[i]? == next[k]?) st.2 st.2 = r at hfb hacc hmax ⊢
  have hr : r < i := Nat.lt_of_le_of_lt hfb.1 hj.lt
  have hbi : Border next i r := hj.border.trans hfb
  obtain ⟨a, ha⟩ : ∃ a, next[i]? = some a := ⟨next[i], List.getElem?_eq_getElem hlt⟩
  have htake : next.take (i + 1) = next.take i ++ [a] := by rw [List.take_add_one, ha]; rfl
  -- A border of the longer beginning is one of the shorter, extended by the new element.
  have hprior : ∀ m, m + 1 < i + 1 → Border next (i + 1) (m + 1) →
      m ≤ r ∧ next[i]? = next[m]? := by
    intro m hm hb
    have hb' := hb.2
    rw [htake] at hb'
    obtain ⟨hs, hnext⟩ := suffix_of_take_succ hb' (by omega)
    have hacc' : next[i]? = next[m]? := by rw [ha, hnext]
    have hmj : m ≤ st.2 := hj.le m (by omega) ⟨by omega, hs⟩
    exact ⟨hmax m (Border.of_suffix hj.border.2 hs hmj) (by simpa using hacc'), hacc'⟩
  have hnew : Longest next (i + 1) (if next[i]? = next[r]? then r + 1 else r) := by
    split
    · rename_i heq
      refine ⟨by omega, ⟨by omega, ?_⟩, ?_⟩
      · rw [htake]
        exact take_succ_suffix hbi.2 (heq ▸ ha)
      · intro m hm hb
        cases m with
        | zero => omega
        | succ m => have := (hprior m hm hb).1; omega
    · rename_i hne
      have hr0 : r = 0 := by
        by_contra hpos
        exact hne (by simpa using hacc (by omega))
      subst hr0
      refine ⟨by omega, border_zero _ _, ?_⟩
      intro m hm hb
      cases m with
      | zero => omega
      | succ m =>
        obtain ⟨hm0, heq⟩ := hprior m hm hb
        have hm0 : m = 0 := by omega
        exact absurd (hm0 ▸ heq) hne
  refine ⟨by simp [hlen], hnew, ?_⟩
  intro k hk
  by_cases hki : k = i
  · subst hki
    have hset : (st.1.set k (if next[k]? = next[r]? then r + 1 else r)).getD k 0 =
        (if next[k]? = next[r]? then r + 1 else r) := by
      simp [List.getD_eq_getElem?_getD, hlen, hlt]
    rw [hset]
    exact hnew
  · have hset : (st.1.set i (if next[i]? = next[r]? then r + 1 else r)).getD k 0 =
        st.1.getD k 0 := by
      simp [List.getD_eq_getElem?_getD, List.getElem?_set_ne (Ne.symm hki)]
    rw [hset]
    exact htab k (by omega)

/-- The table loop, by induction on the number `m` of rounds left. -/
theorem prefixLoop_spec [DecidableEq α] {next : List α} :
    ∀ (m i : Nat) (st : List Nat × Nat), i + m = next.length →
      st.1.length = next.length → Longest next i st.2 → Borders next st.1 i →
      Borders next ((List.range' i m).foldl (prefixStep next) st).1 next.length := by
  intro m
  induction m with
  | zero =>
    intro i st him _ _ htab
    have : i = next.length := by omega
    simpa [← this] using htab
  | succ m ih =>
    intro i st him hlen hj htab
    obtain ⟨hlen', hj', htab'⟩ := prefixStep_spec (by omega) hlen hj htab
    rw [List.range'_succ, List.foldl_cons]
    exact ih (i + 1) _ (by omega) hlen' hj' htab'

theorem longest_one (xs : List α) : Longest xs 1 0 :=
  ⟨Nat.one_pos, border_zero xs 1, fun _ hm _ => Nat.le_of_lt_succ hm⟩

theorem prefixTable_border [DecidableEq α] (next : List α) : Borders next (prefixTable next) next.length := by
  cases hn : next.length with
  | zero => intro k hk; omega
  | succ n =>
    rw [prefixTable, hn, Nat.add_sub_cancel]
    have htab : Borders next (List.replicate (n + 1) 0) 1 := by
      intro k hk
      have : k = 0 := by omega
      subst this
      simpa [List.getD_eq_getElem?_getD] using longest_one next
    have h := prefixLoop_spec n 1 (List.replicate (n + 1) 0, 0) (by omega)
      (by simp [hn]) (longest_one next) htab
    rwa [hn] at h

/-- The last `k` elements of `previous` are the first `k` of `next`. -/
def Overlaps (previous next : List α) (k : Nat) : Prop :=
  k ≤ previous.length ∧ k ≤ next.length ∧ previous.drop (previous.length - k) = next.take k

instance [DecidableEq α] (previous next : List α) (k : Nat) :
    Decidable (Overlaps previous next k) :=
  inferInstanceAs (Decidable (_ ∧ _ ∧ _))

theorem overlaps_iff {previous next : List α} {k : Nat} :
    Overlaps previous next k ↔ k ≤ next.length ∧ next.take k <:+ previous := by
  constructor
  · rintro ⟨_, hk, heq⟩
    exact ⟨hk, heq ▸ List.drop_suffix _ _⟩
  · rintro ⟨hk, hs⟩
    have hlen : (next.take k).length = k := List.length_take_of_le hk
    have hle := hs.length_le
    rw [hlen] at hle
    refine ⟨hle, hk, ?_⟩
    have := List.suffix_iff_eq_drop.mp hs
    rw [hlen] at this
    exact this.symm

theorem overlaps_iff_append {previous next : List α} {k : Nat} :
    Overlaps previous next k ↔
      ∃ a v b, previous = a ++ v ∧ next = v ++ b ∧ v.length = k := by
  constructor
  · rintro ⟨_, hk, heq⟩
    exact ⟨previous.take (previous.length - k), next.take k, next.drop k,
      by rw [← heq, List.take_append_drop], (List.take_append_drop k next).symm,
      List.length_take_of_le hk⟩
  · rintro ⟨a, v, b, rfl, rfl, rfl⟩
    simp [Overlaps]

theorem overlaps_zero (previous next : List α) : Overlaps previous next 0 :=
  overlaps_iff.mpr ⟨Nat.zero_le _, by simp⟩

/-- The scan's invariant: after `previous` the match is the largest overlap. -/
theorem matchStep_spec [DecidableEq α] {next previous : List α} {matched : Nat} (point : α)
    (h : IsGreatest {k | Overlaps previous next k} matched) :
    IsGreatest {k | Overlaps (previous ++ [point]) next k}
      (matchStep next (prefixTable next) matched point) := by
  obtain ⟨hle, hs⟩ := overlaps_iff.mp h.1
  have htab : Borders next (prefixTable next) matched :=
    fun k hk => prefixTable_border next k (by omega)
  obtain ⟨hfb, hacc, hmax⟩ := fallback_spec (fun k => k ≠ next.length && next[k]? == some point)
    matched matched (Nat.le_refl _) htab
  simp only [matchStep]
  generalize fallback (prefixTable next) (fun k => k ≠ next.length && next[k]? == some point)
    matched matched = r at hfb hacc hmax ⊢
  have hprior : ∀ m, Overlaps (previous ++ [point]) next (m + 1) →
      m ≤ r ∧ next[m]? = some point := by
    intro m hm
    obtain ⟨hlen, hs'⟩ := overlaps_iff.mp hm
    obtain ⟨hsm, hnext⟩ := suffix_of_take_succ hs' (by omega)
    have hmm : m ≤ matched := h.2 (overlaps_iff.mpr ⟨by omega, hsm⟩)
    refine ⟨hmax m (Border.of_suffix hs hsm hmm) ?_, hnext⟩
    simp only [hnext, beq_self_eq_true, Bool.and_true, decide_eq_true_eq]
    omega
  split
  · rename_i heq
    have hlt : r < next.length := (List.getElem?_eq_some_iff.mp heq).1
    refine ⟨overlaps_iff.mpr ⟨by omega, take_succ_suffix (hfb.2.trans hs) heq⟩, ?_⟩
    intro m hm
    cases m with
    | zero => omega
    | succ m => have := (hprior m hm).1; omega
  · rename_i hne
    have hr0 : r = 0 := by
      by_contra hpos
      have := hacc (by omega)
      simp only [Bool.and_eq_true, beq_iff_eq] at this
      exact hne this.2
    subst hr0
    refine ⟨overlaps_zero _ next, ?_⟩
    intro m hm
    cases m with
    | zero => omega
    | succ m =>
      obtain ⟨hm0, hnext⟩ := hprior m hm
      have hm0 : m = 0 := by omega
      exact absurd (hm0 ▸ hnext) hne

theorem scan_spec [DecidableEq α] (next : List α) :
    ∀ (points previous : List α) (matched : Nat),
      IsGreatest {k | Overlaps previous next k} matched →
      IsGreatest {k | Overlaps (previous ++ points) next k}
        (points.foldl (matchStep next (prefixTable next)) matched) := by
  intro points
  induction points with
  | nil => intro previous matched h; simpa using h
  | cons p ps ih =>
    intro previous matched h
    have := ih (previous ++ [p]) _ (matchStep_spec p h)
    simpa [List.append_assoc] using this

/-- `overlap` is the largest length of a suffix of `previous` that is a prefix of `next`. -/
theorem overlap_greatest [DecidableEq α] (previous next : List α) :
    IsGreatest {k | Overlaps previous next k} (overlap previous next) := by
  unfold overlap
  split
  · rename_i hnil
    subst hnil
    exact ⟨overlaps_zero _ _, fun k hk => hk.2.1⟩
  · exact scan_spec next previous [] 0 ⟨overlaps_zero _ _, fun k hk => hk.1⟩

end Lib
end PiCloud
