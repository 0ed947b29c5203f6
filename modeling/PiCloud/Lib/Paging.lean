import Mathlib.Data.List.MinMax
import Mathlib.Data.List.Perm.Subperm
import Mathlib.Data.List.Sort
import PiCloud.Lib.Run

/-!
# Lib.Paging

Scans that are sorted, cut to a limit, and continued from a cursor.

* `sortBy`: rows sorted by a key, as `order by` does it.
* `take_sortBy`: the first rows of a merge need no more than the first rows of its parts.
* `Page`, `follow`: one page, and all pages from the first cursor on.
* `Scans`: pages that the rows past a cursor are cut from.
* `follow_complete`, `follow_ordered`: the pages are the rows exactly if the order of the rows is the
  order of the cursors.
-/

namespace PiCloud
namespace Lib

/-! ## Sorted rows -/

section Sorted

variable {α κ : Type} [LinearOrder κ] (key : α → κ)

def sortBy (l : List α) : List α := l.insertionSort fun a b => key a ≤ key b

variable {key} {l m : List α}

theorem perm_sortBy (l : List α) : (sortBy key l).Perm l := List.perm_insertionSort _ l

@[simp] theorem mem_sortBy {a : α} : a ∈ sortBy key l ↔ a ∈ l := (perm_sortBy l).mem_iff

@[simp] theorem length_sortBy : (sortBy key l).length = l.length := (perm_sortBy l).length_eq

theorem head?_sortBy (l : List α) : (sortBy key l).head? = l.argmin key := by
  induction l with
  | nil => rfl
  | cons a l ih =>
    unfold sortBy at ih ⊢
    rw [List.insertionSort_cons, List.argmin_cons, ← ih]
    cases l.insertionSort fun a b => key a ≤ key b with
    | nil => rfl
    | cons b m =>
      simp only [List.orderedInsert, List.head?_cons]
      by_cases h : key a ≤ key b
      · rw [if_pos h, if_neg (not_lt.mpr h)]
        rfl
      · rw [if_neg h, if_pos (not_le.mp h)]
        rfl

theorem pairwise_sortBy (h : (l.map key).Nodup) :
    (sortBy key l).Pairwise fun a b => key a < key b := by
  have hle : (sortBy key l).Pairwise fun a b => key a ≤ key b := by
    have : Std.Total fun a b => key a ≤ key b := ⟨fun a b => le_total (key a) (key b)⟩
    have : IsTrans α fun a b => key a ≤ key b := ⟨fun _ _ _ => le_trans⟩
    exact List.pairwise_insertionSort _ l
  have hne : (sortBy key l).Pairwise fun a b => key a ≠ key b :=
    List.pairwise_map.mp (((perm_sortBy l).map key).nodup_iff.mpr h)
  exact (hle.and hne).imp fun hab => lt_of_le_of_ne hab.1 hab.2

theorem sortBy_eq (hp : m.Perm l) (hs : m.Pairwise fun a b => key a < key b) : sortBy key l = m := by
  have hkeys : (l.map key).Nodup :=
    (hp.map key).nodup_iff.mp (List.pairwise_map.mpr (hs.imp ne_of_lt))
  have hanti : ∀ a b, a ∈ sortBy key l → b ∈ m → key a < key b → key b < key a → a = b :=
    fun _ _ _ _ hab hba => absurd (lt_trans hab hba) (lt_irrefl _)
  exact List.Perm.eq_of_pairwise hanti (pairwise_sortBy hkeys) hs ((perm_sortBy l).trans hp.symm)

theorem sortBy_perm (hp : l.Perm m) (h : (l.map key).Nodup) : sortBy key l = sortBy key m :=
  sortBy_eq ((perm_sortBy m).trans hp.symm) (pairwise_sortBy ((hp.map key).nodup_iff.mp h))

theorem sortBy_filter (h : (l.map key).Nodup) (p : α → Bool) :
    sortBy key (l.filter p) = (sortBy key l).filter p :=
  sortBy_eq ((perm_sortBy l).filter p) ((pairwise_sortBy h).filter p)

theorem take_filter {p : α → Bool} {n : Nat} (h : ∀ a ∈ l.take n, p a = true) :
    (l.filter p).take n = l.take n := by
  by_cases hn : n ≤ l.length
  · conv_lhs => rw [← List.take_append_drop n l, List.filter_append, List.filter_eq_self.mpr h]
    exact List.take_left' (List.length_take_of_le hn)
  · have hall : l.take n = l := List.take_of_length_le (by omega)
    rw [hall] at h
    rw [List.filter_eq_self.mpr h]

theorem mem_take_sortBy (h : ((l ++ m).map key).Nodup) {n : Nat} {x : α}
    (hx : x ∈ (sortBy key (l ++ m)).take n) : x ∈ (sortBy key l).take n ∨ x ∈ m := by
  obtain hl | hm := List.mem_append.mp (mem_sortBy.mp (List.mem_of_mem_take hx))
  · left
    by_contra hout
    have hsorted := pairwise_sortBy h
    rw [← List.take_append_drop n (sortBy key (l ++ m)), List.pairwise_append] at hsorted
    have hl' := pairwise_sortBy (l := l) (by
      rw [List.map_append] at h
      exact (List.nodup_append.mp h).1)
    rw [← List.take_append_drop n (sortBy key l), List.pairwise_append] at hl'
    have hdrop : x ∈ (sortBy key l).drop n := by
      have hmem : x ∈ sortBy key l := mem_sortBy.mpr hl
      rw [← List.take_append_drop n (sortBy key l), List.mem_append] at hmem
      exact hmem.resolve_left hout
    -- the first rows of the part come before `x`, and so are among the first rows of the merge
    have hsub : (x :: (sortBy key l).take n) ⊆ (sortBy key (l ++ m)).take n := by
      intro y hy
      obtain rfl | hy := List.mem_cons.mp hy
      · exact hx
      have hyx := hl'.2.2 y hy x hdrop
      have hmem : y ∈ sortBy key (l ++ m) :=
        mem_sortBy.mpr (List.mem_append_left m (mem_sortBy.mp (List.mem_of_mem_take hy)))
      rw [← List.take_append_drop n (sortBy key (l ++ m)), List.mem_append] at hmem
      exact hmem.resolve_right fun hlate => absurd (hsorted.2.2 x hx y hlate) (lt_asymm hyx)
    have hnodup : (x :: (sortBy key l).take n).Nodup :=
      List.nodup_cons.mpr ⟨hout, hl'.1.imp fun hab heq => ne_of_lt hab (congrArg key heq)⟩
    have hle := (List.Nodup.subperm hnodup hsub).length_le
    have hfull : n < (sortBy key l).length := by
      by_contra hshort
      rw [List.drop_eq_nil_of_le (by omega)] at hdrop
      cases hdrop
    rw [List.length_cons, List.length_take, List.length_take] at hle
    omega
  · exact .inr hm

theorem take_sortBy (h : ((l ++ m).map key).Nodup) (n : Nat) :
    (sortBy key ((sortBy key l).take n ++ m)).take n = (sortBy key (l ++ m)).take n := by
  let p : α → Bool := fun x => decide (key x ∈ ((sortBy key l).take n ++ m).map key)
  have hsub : ((sortBy key l).take n ++ m) ⊆ l ++ m := by
    intro x hx
    obtain hx | hx := List.mem_append.mp hx
    · exact List.mem_append_left m (mem_sortBy.mp (List.mem_of_mem_take hx))
    · exact List.mem_append_right l hx
  have hmem : ∀ x ∈ l ++ m, p x = true ↔ x ∈ (sortBy key l).take n ++ m := by
    intro x hx
    rw [decide_eq_true_eq, List.mem_map]
    constructor
    · rintro ⟨y, hy, heq⟩
      rwa [List.inj_on_of_nodup_map h hx (hsub hy) heq.symm]
    · exact fun hin => ⟨x, hin, rfl⟩
  have hnodup := List.Nodup.of_map key h
  have hperm : ((sortBy key l).take n ++ m).Perm ((l ++ m).filter p) := by
    refine (List.perm_ext_iff_of_nodup ?_ (hnodup.filter p)).mpr fun x => ?_
    · have hl := (List.nodup_append.mp hnodup)
      have hperm : ((sortBy key l).take n ++ m).Sublist (sortBy key l ++ m) :=
        (List.take_sublist n _).append_right m
      exact (((perm_sortBy l).append_right m).nodup_iff.mpr hnodup).sublist hperm
    · rw [List.mem_filter]
      exact ⟨fun hx => ⟨hsub hx, (hmem x (hsub hx)).mpr hx⟩, fun hx => (hmem x hx.1).mp hx.2⟩
  have hsort : sortBy key ((sortBy key l).take n ++ m) = (sortBy key (l ++ m)).filter p := by
    rw [← sortBy_filter h p]
    have hkeys : (((l ++ m).filter p).map key).Nodup := h.sublist (List.filter_sublist.map key)
    exact sortBy_eq ((perm_sortBy _).trans hperm.symm) (pairwise_sortBy hkeys)
  rw [hsort]
  refine take_filter fun x hx => ?_
  have hin := mem_sortBy.mp (List.mem_of_mem_take hx)
  exact (hmem x hin).mpr (List.mem_append.mpr (mem_take_sortBy h hx))

theorem take_sortBy_right (h : ((l ++ m).map key).Nodup) (n : Nat) :
    (sortBy key (l ++ (sortBy key m).take n)).take n = (sortBy key (l ++ m)).take n := by
  have hswap : ((m ++ l).map key).Nodup := (List.perm_append_comm.map key).nodup_iff.mp h
  have hsub : (l ++ (sortBy key m).take n).Sublist (l ++ sortBy key m) :=
    (List.Sublist.refl l).append (List.take_sublist n _)
  have hperm : (l ++ sortBy key m).Perm (l ++ m) := (perm_sortBy m).append_left l
  have hnodup : ((l ++ (sortBy key m).take n).map key).Nodup :=
    ((hperm.map key).nodup_iff.mpr h).sublist (hsub.map key)
  rw [sortBy_perm List.perm_append_comm hnodup, take_sortBy hswap,
    sortBy_perm List.perm_append_comm hswap]

theorem take_sortBy_append (h : ((l ++ m).map key).Nodup) (n : Nat) :
    (sortBy key ((sortBy key l).take n ++ (sortBy key m).take n)).take n =
      (sortBy key (l ++ m)).take n := by
  have hsub : (l ++ (sortBy key m).take n).Sublist (l ++ sortBy key m) :=
    (List.Sublist.refl l).append (List.take_sublist n _)
  have hperm : (l ++ sortBy key m).Perm (l ++ m) := (perm_sortBy m).append_left l
  have hnodup : ((l ++ (sortBy key m).take n).map key).Nodup :=
    ((hperm.map key).nodup_iff.mpr h).sublist (hsub.map key)
  rw [take_sortBy hnodup, take_sortBy_right h]

end Sorted

/-! ## Pages -/

structure Page (α : Type) where
  items : List α
  next : Option Nat

section Pages

variable {α : Type} (scan : Option Nat → Option (Page α))

/-- The items of all pages, from a cursor on; `none` also when the fuel runs out. -/
def follow : Nat → Option Nat → Option (List α)
  | 0, _ => none
  | fuel + 1, cursor => (scan cursor).bind fun page =>
    match page.next with
    | none => some page.items
    | some after => (follow fuel (some after)).map (page.items ++ ·)

theorem follow_add_one (fuel : Nat) (cursor : Option Nat) :
    follow scan (fuel + 1) cursor = (scan cursor).bind fun page =>
      match page.next with
      | none => some page.items
      | some after => (follow scan fuel (some after)).map (page.items ++ ·) :=
  rfl

def Page.cut (id : α → Nat) (rows : List α) (limit : Nat) : Page α where
  items := rows.take limit
  next := if limit < rows.length then (rows[limit - 1]?).map id else none

/-- The pages of a scan over `all`: a cursor leaves the rows that its order has after it. -/
structure Scans (id : α → Nat) (R : Nat → Nat → Prop) [DecidableRel R] (limit : Nat)
    (all : List α) : Prop where
  start : scan none = some (Page.cut id (all.take (limit + 1)) limit)
  next : ∀ x ∈ all, scan (some (id x)) =
    some (Page.cut id ((all.filter fun y => R (id x) (id y)).take (limit + 1)) limit)

variable {scan} {id : α → Nat} {R : Nat → Nat → Prop} [DecidableRel R] {limit : Nat} {all : List α}

def rest (id : α → Nat) (R : Nat → Nat → Prop) [DecidableRel R] (all : List α) : Option Nat → List α
  | none => all
  | some after => all.filter fun y => R after (id y)

def Given (id : α → Nat) (all : List α) (cursor : Option Nat) : Prop :=
  ∀ after, cursor = some after → ∃ x ∈ all, after = id x

theorem Scans.scan_eq (h : Scans scan id R limit all) {cursor : Option Nat}
    (hc : Given id all cursor) :
    scan cursor = some (Page.cut id ((rest id R all cursor).take (limit + 1)) limit) := by
  cases cursor with
  | none => exact h.start
  | some after =>
    obtain ⟨x, hx, rfl⟩ := hc after rfl
    exact h.next x hx

theorem mem_of_mem_rest {cursor : Option Nat} {x : α} (h : x ∈ rest id R all cursor) : x ∈ all := by
  cases cursor with
  | none => exact h
  | some after => exact (List.mem_filter.mp h).1

theorem Scans.follow_succ (h : Scans scan id R limit all) (hl : 1 ≤ limit) {cursor : Option Nat}
    (hc : Given id all cursor) (fuel : Nat) :
    ((rest id R all cursor).length ≤ limit ∧
      follow scan (fuel + 1) cursor = some (rest id R all cursor)) ∨
    ∃ last, (rest id R all cursor)[limit - 1]? = some last ∧
      limit < (rest id R all cursor).length ∧
      follow scan (fuel + 1) cursor =
        (follow scan fuel (some (id last))).map ((rest id R all cursor).take limit ++ ·) := by
  rw [follow_add_one, h.scan_eq hc, Option.bind_some]
  unfold Page.cut
  generalize rest id R all cursor = rows
  have htake : (rows.take (limit + 1)).take limit = rows.take limit := by
    rw [List.take_take, Nat.min_eq_left (by omega)]
  by_cases hmore : limit < rows.length
  · right
    obtain ⟨last, hlast⟩ : ∃ last, rows[limit - 1]? = some last :=
      ⟨_, List.getElem?_eq_getElem (by omega)⟩
    refine ⟨last, hlast, hmore, ?_⟩
    dsimp only
    rw [if_pos (by rw [List.length_take]; omega), List.getElem?_take_of_lt (by omega), hlast, htake]
    rfl
  · left
    refine ⟨by omega, ?_⟩
    dsimp only
    rw [if_neg (by rw [List.length_take]; omega), htake, List.take_of_length_le (by omega)]

theorem given_last {cursor : Option Nat} {last : α} {k : Nat}
    (h : (rest id R all cursor)[k]? = some last) : Given id all (some (id last)) := by
  intro after heq
  cases heq
  exact ⟨last, mem_of_mem_rest (List.mem_of_getElem? h), rfl⟩

theorem rest_of_sorted (hasymm : ∀ a b, R a b → ¬ R b a)
    (hsorted : all.Pairwise fun a b => R (id a) (id b)) {k : Nat} {last : α}
    (hk : all[k]? = some last) : rest id R all (some (id last)) = all.drop (k + 1) := by
  obtain ⟨hlt, rfl⟩ := List.getElem?_eq_some_iff.mp hk
  have hsplit : all = all.take k ++ all[k] :: all.drop (k + 1) := by
    rw [← List.drop_eq_getElem_cons hlt, List.take_append_drop]
  have hs := hsorted
  rw [hsplit, List.pairwise_append, List.pairwise_cons] at hs
  obtain ⟨-, ⟨hafter, -⟩, hbefore⟩ := hs
  have hearly : (all.take k).filter (fun y => decide (R (id all[k]) (id y))) = [] := by
    refine List.filter_eq_nil_iff.mpr fun y hy => ?_
    rw [decide_eq_true_eq]
    exact hasymm _ _ (hbefore y hy _ List.mem_cons_self)
  have hself : ¬ R (id all[k]) (id all[k]) := fun hr => hasymm _ _ hr hr
  have hlate : (all.drop (k + 1)).filter (fun y => decide (R (id all[k]) (id y))) = all.drop (k + 1) :=
    List.filter_eq_self.mpr fun y hy => decide_eq_true (hafter y hy)
  calc rest id R all (some (id all[k]))
      = (all.take k ++ all[k] :: all.drop (k + 1)).filter
          (fun y => decide (R (id all[k]) (id y))) := by rw [← hsplit]; rfl
    _ = all.drop (k + 1) := by
      rw [List.filter_append, List.filter_cons_of_neg (by rwa [decide_eq_true_eq]), hearly, hlate,
        List.nil_append]

theorem follow_complete (h : Scans scan id R limit all) (hasymm : ∀ a b, R a b → ¬ R b a)
    (hl : 1 ≤ limit) (hsorted : all.Pairwise fun a b => R (id a) (id b)) {fuel : Nat}
    (hf : all.length < fuel) : follow scan fuel none = some all := by
  -- the rows that a page leaves are the ones after it
  have hall : ∀ fuel k cursor, Given id all cursor → rest id R all cursor = all.drop k →
      all.length - k < fuel → follow scan fuel cursor = some (all.drop k) := by
    intro fuel
    induction fuel with
    | zero =>
      intro k cursor _ _ hlt
      omega
    | succ fuel ih =>
      intro k cursor hc hrest hlt
      obtain ⟨-, hpage⟩ | ⟨last, hlast, hmore, hpage⟩ := h.follow_succ hl hc fuel
      · rw [hpage, hrest]
      · have hgiven := given_last hlast
        rw [hrest, List.length_drop] at hmore
        rw [hrest, List.getElem?_drop] at hlast
        have hnext := rest_of_sorted hasymm hsorted hlast
        rw [hpage, ih (k + (limit - 1) + 1) _ hgiven hnext (by omega), Option.map_some, hrest]
        have hk : k + (limit - 1) + 1 = k + limit := by omega
        rw [hk, ← List.drop_drop, List.take_append_drop]
  exact hall fuel 0 none nofun rfl (by omega)

theorem follow_ordered (h : Scans scan id R 1 all) (htrans : ∀ a b c, R a b → R b c → R a c)
    {fuel : Nat} {out : List α} (hout : follow scan fuel none = some out) :
    out.Pairwise fun a b => R (id a) (id b) := by
  have hall : ∀ fuel cursor out, Given id all cursor → follow scan fuel cursor = some out →
      out.Pairwise (fun a b => R (id a) (id b)) ∧
        ∀ after, cursor = some after → ∀ y ∈ out, R after (id y) := by
    intro fuel
    induction fuel with
    | zero =>
      intro cursor out _ hout
      cases hout
    | succ fuel ih =>
      intro cursor out hc hout
      have hrest : ∀ after, cursor = some after → ∀ y ∈ rest id R all cursor, R after (id y) := by
        rintro after rfl y hy
        exact of_decide_eq_true (List.mem_filter.mp hy).2
      obtain ⟨hshort, hpage⟩ | ⟨last, hlast, hmore, hpage⟩ := h.follow_succ (Nat.le_refl 1) hc fuel
      · rw [hpage] at hout
        cases hout
        refine ⟨?_, hrest⟩
        match hrows : rest id R all cursor, hshort with
        | [], _ => exact .nil
        | [x], _ => exact List.pairwise_singleton _ x
      · rw [hpage] at hout
        obtain ⟨out', hout', rfl⟩ := Option.map_eq_some_iff.mp hout
        obtain ⟨hsorted, hafter⟩ := ih _ out' (given_last hlast) hout'
        have hfirst : (rest id R all cursor).take 1 = [last] := by
          cases hrows : rest id R all cursor with
          | nil =>
            rw [hrows] at hlast
            cases hlast
          | cons x xs =>
            rw [hrows] at hlast
            cases hlast
            rfl
        rw [hfirst, List.singleton_append]
        refine ⟨List.pairwise_cons.mpr ⟨hafter _ rfl, hsorted⟩, ?_⟩
        intro after hcur y hy
        have hlastR := hrest after hcur last (List.mem_of_getElem? hlast)
        obtain rfl | hy := List.mem_cons.mp hy
        · exact hlastR
        · exact htrans _ _ _ hlastR (hafter _ rfl y hy)
  exact (hall fuel none out nofun hout).1

theorem follow_isSome (h : Scans scan id R limit all) (htrans : ∀ a b c, R a b → R b c → R a c)
    (hirrefl : ∀ a, ¬ R a a) (hl : 1 ≤ limit) {fuel : Nat} (hf : all.length < fuel) :
    (follow scan fuel none).isSome = true := by
  have hall : ∀ fuel cursor, Given id all cursor → (rest id R all cursor).length < fuel →
      (follow scan fuel cursor).isSome = true := by
    intro fuel
    induction fuel with
    | zero =>
      intro cursor _ hlt
      omega
    | succ fuel ih =>
      intro cursor hc hlt
      obtain ⟨-, hpage⟩ | ⟨last, hlast, hmore, hpage⟩ := h.follow_succ hl hc fuel
      · rw [hpage]
        rfl
      · have hmem := List.mem_of_getElem? hlast
        -- the cursor drops its own row, and nothing comes back
        have hsub : rest id R all (some (id last)) =
            (rest id R all cursor).filter fun y => decide (R (id last) (id y)) := by
          cases cursor with
          | none => rfl
          | some after =>
            unfold rest
            dsimp only
            rw [List.filter_filter]
            refine List.filter_congr fun y _ => ?_
            have hlastR : R after (id last) := of_decide_eq_true (List.mem_filter.mp hmem).2
            by_cases hy : R (id last) (id y)
            · rw [decide_eq_true hy, decide_eq_true (htrans _ _ _ hlastR hy), Bool.and_true]
            · rw [decide_eq_false hy, Bool.false_and]
        have hshorter : (rest id R all (some (id last))).length < (rest id R all cursor).length := by
          rw [hsub]
          refine List.length_filter_lt_length_iff_exists.mpr ⟨last, hmem, ?_⟩
          rw [decide_eq_true_eq]
          exact hirrefl _
        have := ih _ (given_last hlast) (by omega)
        rw [hpage, Option.isSome_map]
        exact this
  exact hall fuel none nofun hf

end Pages

end Lib
end PiCloud
