import Mathlib.Algebra.BigOperators.Group.List.Basic
import Mathlib.Algebra.Ring.Nat
import Mathlib.Data.List.Basic
import Mathlib.Data.Nat.Find

/-!
# Lib.PromiseTail

Work that is serialised by a tail promise: each piece is chained to the one that was last, and
begins when that one has settled.

* `PromiseTail`: the pieces in the order of their calls; the order in which they run is a field.
* `push`, `start`, `edit`, `settle`: a piece is chained, begins, goes on and settles.
* `moved`: the pieces after one of them has moved.
* `running_unique`: no two pieces run at once.
* `load`: a quantity summed over the pieces that have not settled.
-/

namespace PiCloud
namespace Lib

inductive LinkStatus where
  | waiting
  | running
  | settled
deriving DecidableEq

structure Link (α : Type) where
  value : α
  after : Option Nat
  status : LinkStatus := .waiting

def before : Nat → Option Nat
  | 0 => none
  | i + 1 => some i

structure PromiseTail (α : Type) where
  links : List (Link α) := []
  tail : Option Nat := none
  last : tail = before links.length := by rfl
  linked : ∀ (i : Nat) (l : Link α), links[i]? = some l → l.after = before i := by
    intro i l h; cases h
  ordered : ∀ (i j : Nat) (a b : Link α), i < j → links[i]? = some a → links[j]? = some b →
    b.status ≠ .waiting → a.status = .settled := by intro i j a b _ h; cases h

namespace PromiseTail

variable {α : Type}

def resolved : PromiseTail α := {}

theorem running_unique (t : PromiseTail α) {i j : Nat} {a b : Link α} (hi : t.links[i]? = some a)
    (hj : t.links[j]? = some b) (ha : a.status = .running) (hb : b.status = .running) : i = j := by
  have hwait : ∀ l : Link α, l.status = .running → l.status ≠ .waiting := by
    intro l hl hw
    rw [hl] at hw
    cases hw
  obtain hlt | heq | hlt := Nat.lt_trichotomy i j
  · have hsettled := t.ordered i j a b hlt hi hj (hwait b hb)
    rw [ha] at hsettled
    cases hsettled
  · exact heq
  · have hsettled := t.ordered j i b a hlt hj hi (hwait a ha)
    rw [hb] at hsettled
    cases hsettled

def push (t : PromiseTail α) (value : α) : PromiseTail α where
  links := t.links ++ [{ value, after := t.tail }]
  tail := some t.links.length
  last := by simp [before]
  linked := by
    intro i l h
    rw [List.getElem?_append] at h
    split at h
    · exact t.linked i l h
    · rename_i hlt
      obtain ⟨hi, rfl⟩ := List.getElem?_eq_some_iff.mp h
      have hlen : i = t.links.length := by
        simp only [List.length_singleton] at hi
        omega
      simp only [List.getElem_singleton]
      rw [hlen]
      exact t.last
  ordered := by
    intro i j a b hij hi hj hb
    rw [List.getElem?_append] at hi hj
    split at hj
    · rw [if_pos (by omega)] at hi
      exact t.ordered i j a b hij hi hj hb
    · obtain ⟨hlt, rfl⟩ := List.getElem?_eq_some_iff.mp hj
      simp only [List.getElem_singleton] at hb
      exact absurd rfl hb

def free (t : PromiseTail α) : Option Nat → Bool
  | none => true
  | some i => t.links[i]?.any fun l => l.status = .settled

theorem before_of_free {t : PromiseTail α} {i j : Nat} {a l : Link α} (hij : i < j)
    (hi : t.links[i]? = some a) (hj : t.links[j]? = some l) (hfree : t.free l.after = true) :
    a.status = .settled := by
  obtain ⟨k, rfl⟩ : ∃ k, j = k + 1 := ⟨j - 1, by omega⟩
  rw [t.linked _ l hj] at hfree
  simp only [before, free, Option.any_eq_true, decide_eq_true_eq] at hfree
  obtain ⟨p, hp, hsettled⟩ := hfree
  obtain hlt | rfl := Nat.lt_or_eq_of_le (Nat.le_of_lt_succ hij)
  · refine t.ordered i k a p hlt hi hp ?_
    rw [hsettled]
    nofun
  · rw [hi] at hp
    cases hp
    exact hsettled

/-- A piece in its place, with a status that it may have now. -/
def put (t : PromiseTail α) (i : Nat) (value : α) (status : LinkStatus)
    (h : ∀ l, t.links[i]? = some l → (status ≠ .waiting → t.free l.after = true) ∧
      (l.status = .settled → status = .settled)) : PromiseTail α where
  links := t.links.modify i fun l => { l with value, status }
  tail := t.tail
  last := by rw [List.length_modify]; exact t.last
  linked := by
    intro j l hj
    rw [List.getElem?_modify] at hj
    obtain ⟨q, hq, rfl⟩ := Option.map_eq_some_iff.mp hj
    have := t.linked j q hq
    split
    · exact this
    · exact this
  ordered := by
    intro j k a b hjk hj hk hb
    rw [List.getElem?_modify] at hj hk
    obtain ⟨p, hp, rfl⟩ := Option.map_eq_some_iff.mp hj
    obtain ⟨q, hq, rfl⟩ := Option.map_eq_some_iff.mp hk
    have hsettled : p.status = .settled := by
      by_cases hik : i = k
      · subst hik
        rw [if_pos rfl] at hb
        exact before_of_free hjk hp hq ((h q hq).1 hb)
      · rw [if_neg hik] at hb
        exact t.ordered j k p q hjk hp hq hb
    split
    · rename_i hij
      subst hij
      exact (h p hp).2 hsettled
    · exact hsettled

theorem free_of_running (t : PromiseTail α) {i : Nat} {l : Link α} (hi : t.links[i]? = some l)
    (h : l.status ≠ .waiting) : t.free l.after = true := by
  rw [t.linked i l hi]
  cases i with
  | zero => rfl
  | succ k =>
    have hlt : k < t.links.length := by
      have := (List.getElem?_eq_some_iff.mp hi).1
      omega
    have hk : t.links[k]? = some t.links[k] := List.getElem?_eq_getElem hlt
    simp only [before, free, hk, Option.any_some, decide_eq_true_eq]
    exact t.ordered k (k + 1) _ l (Nat.lt_succ_self k) hk hi h

/-- A piece that may run goes from one status to the next. -/
def move (t : PromiseTail α) (i : Nat) (source target : LinkStatus) (h : source ≠ .settled)
    (f : α → α) : PromiseTail α :=
  match hi : t.links[i]? with
  | none => t
  | some l =>
    if hl : l.status = source ∧ t.free l.after = true then
      t.put i (f l.value) target (by
        intro q hq
        rw [hi] at hq
        cases hq
        exact ⟨fun _ => hl.2, fun hs => absurd (hl.1.symm.trans hs) h⟩)
    else t

def start (t : PromiseTail α) (i : Nat) (f : α → α) : PromiseTail α :=
  t.move i .waiting .running (by nofun) f

def edit (t : PromiseTail α) (i : Nat) (f : α → α) : PromiseTail α :=
  t.move i .running .running (by nofun) f

def settle (t : PromiseTail α) (i : Nat) (f : α → α) : PromiseTail α :=
  t.move i .running .settled (by nofun) f

/-! ### The pieces after an operation -/

theorem links_push (t : PromiseTail α) (value : α) :
    (t.push value).links = t.links ++ [{ value, after := t.tail }] := rfl

theorem pushed {t : PromiseTail α} {value : α} {i : Nat} {l : Link α}
    (h : (t.push value).links[i]? = some l) :
    t.links[i]? = some l ∨ i = t.links.length ∧ l = { value, after := t.tail } := by
  rw [links_push, List.getElem?_append] at h
  split at h
  · exact .inl h
  · obtain ⟨hi, rfl⟩ := List.getElem?_eq_some_iff.mp h
    rw [List.length_singleton] at hi
    rw [List.getElem_singleton]
    exact .inr ⟨by omega, rfl⟩

theorem getElem?_put (t : PromiseTail α) (i : Nat) (value : α) (status : LinkStatus) (h) (j : Nat) :
    (t.put i value status h).links[j]?
      = t.links[j]?.map fun l => if i = j then { l with value, status } else l := by
  simp only [put, List.getElem?_modify, Option.map_eq_map]

theorem getElem?_move (t : PromiseTail α) (i : Nat) {source target : LinkStatus}
    (h : source ≠ .settled) (f : α → α) (j : Nat) :
    (t.move i source target h f).links[j]? = t.links[j]?.map fun l =>
      if i = j ∧ l.status = source ∧ t.free l.after = true then
        { l with value := f l.value, status := target } else l := by
  unfold move
  split
  · rename_i hnone
    cases hj : t.links[j]? with
    | none => rfl
    | some l =>
      have hne : i ≠ j := by
        rintro rfl
        rw [hnone] at hj
        cases hj
      rw [Option.map_some, if_neg fun h => hne h.1]
  · rename_i q hq
    split
    · rename_i hwait
      rw [getElem?_put]
      cases hj : t.links[j]? with
      | none => rfl
      | some l =>
        by_cases hij : i = j
        · subst hij
          rw [hq] at hj
          cases hj
          simp only [Option.map_some, true_and, if_true, if_pos hwait]
        · simp only [Option.map_some, hij, false_and, if_false]
    · rename_i hwait
      cases hj : t.links[j]? with
      | none => rfl
      | some l =>
        rw [Option.map_some, if_neg]
        rintro ⟨rfl, h⟩
        rw [hq] at hj
        cases hj
        exact hwait h

theorem moved {t : PromiseTail α} {i : Nat} {source target : LinkStatus} {h : source ≠ .settled}
    {f : α → α} {j : Nat} {l : Link α} (hj : (t.move i source target h f).links[j]? = some l) :
    t.links[j]? = some l ∧ (j = i → ¬ (l.status = source ∧ t.free l.after = true)) ∨
      j = i ∧ ∃ q, t.links[i]? = some q ∧ q.status = source ∧
        l = { q with value := f q.value, status := target } := by
  rw [getElem?_move] at hj
  obtain ⟨q, hq, rfl⟩ := Option.map_eq_some_iff.mp hj
  split
  · rename_i hmove
    obtain ⟨rfl, hs, _⟩ := hmove
    exact .inr ⟨rfl, q, hq, hs, rfl⟩
  · rename_i hmove
    exact .inl ⟨hq, fun hji hs => hmove ⟨hji.symm, hs⟩⟩

theorem started {t : PromiseTail α} {i : Nat} {f : α → α} {j : Nat} {l : Link α}
    (hj : (t.start i f).links[j]? = some l) :
    t.links[j]? = some l ∨ j = i ∧ ∃ q, t.links[i]? = some q ∧ q.status = .waiting ∧
      l = { q with value := f q.value, status := .running } :=
  (moved hj).imp_left And.left

theorem edited {t : PromiseTail α} {i : Nat} {f : α → α} {j : Nat} {l : Link α}
    (hj : (t.edit i f).links[j]? = some l) :
    t.links[j]? = some l ∨ j = i ∧ ∃ q, t.links[i]? = some q ∧ q.status = .running ∧
      l = { q with value := f q.value, status := .running } :=
  (moved hj).imp_left And.left

theorem settled {t : PromiseTail α} {i : Nat} {f : α → α} {j : Nat} {l : Link α}
    (hj : (t.settle i f).links[j]? = some l) :
    t.links[j]? = some l ∧ (j = i → l.status ≠ .running) ∨
      j = i ∧ ∃ q, t.links[i]? = some q ∧ q.status = .running ∧
        l = { q with value := f q.value, status := .settled } := by
  refine (moved hj).imp_left fun h => ⟨h.1, fun hji hrun => h.2 hji ⟨hrun, ?_⟩⟩
  exact t.free_of_running h.1 (by rw [hrun]; nofun)

theorem exists_moved {t : PromiseTail α} (i : Nat) {source target : LinkStatus}
    (h : source ≠ .settled) (f : α → α) {j : Nat} {l : Link α} (hj : t.links[j]? = some l) :
    ∃ l', (t.move i source target h f).links[j]? = some l' ∧
      (l' = l ∨ l' = { l with value := f l.value, status := target }) := by
  rw [getElem?_move, hj]
  refine ⟨_, rfl, ?_⟩
  dsimp only
  split
  · exact .inr rfl
  · exact .inl rfl

/-! ### What is under way -/

def load (t : PromiseTail α) (weight : α → Nat) : Nat :=
  (t.links.map fun l => if l.status = .settled then 0 else weight l.value).sum

theorem load_empty (weight : α → Nat) : ({} : PromiseTail α).load weight = 0 := rfl

theorem load_push (t : PromiseTail α) (value : α) (weight : α → Nat) :
    (t.push value).load weight = t.load weight + weight value := by
  unfold load
  rw [links_push, List.map_append, List.sum_append]
  rfl

theorem load_pos {t : PromiseTail α} {i : Nat} {l : Link α} (hl : t.links[i]? = some l)
    (hs : l.status ≠ .settled) : t.load (fun _ => 1) ≠ 0 := by
  unfold load
  rw [ne_eq, List.sum_eq_zero_iff_forall_eq_nat]
  intro hzero
  have hone := hzero _ (List.mem_map.mpr ⟨l, List.mem_of_getElem? hl, rfl⟩)
  rw [if_neg hs] at hone
  cases hone

theorem exists_next {t : PromiseTail α} (h : t.load (fun _ => 1) ≠ 0) :
    ∃ (i : Nat) (l : Link α), t.links[i]? = some l ∧ l.status ≠ .settled ∧ t.free l.after = true := by
  have hsome : ∃ (i : Nat) (l : Link α), t.links[i]? = some l ∧ l.status ≠ .settled := by
    by_contra hnone
    refine h (List.sum_eq_zero_iff_forall_eq_nat.mpr ?_)
    intro n hn
    obtain ⟨l, hl, rfl⟩ := List.mem_map.mp hn
    obtain ⟨i, hi⟩ := List.mem_iff_getElem?.mp hl
    rw [if_pos]
    by_contra hs
    exact hnone ⟨i, l, hi, hs⟩
  classical
  obtain ⟨l, hl, hs⟩ := Nat.find_spec hsome
  refine ⟨Nat.find hsome, l, hl, hs, ?_⟩
  rw [t.linked _ l hl]
  cases hi : Nat.find hsome with
  | zero => rfl
  | succ k =>
    rw [hi] at hl
    have hk : k < t.links.length := Nat.lt_of_succ_lt (List.getElem?_eq_some_iff.mp hl).1
    have hprev := List.getElem?_eq_getElem hk
    show (t.links[k]?.any fun l => l.status = .settled) = true
    rw [hprev, Option.any_some, decide_eq_true_iff]
    by_contra hne
    exact Nat.find_min hsome (by rw [hi]; exact Nat.lt_succ_self k) ⟨_, hprev, hne⟩

theorem sum_modify {β : Type} (f : β → Nat) (g : β → β) (l : List β) {i : Nat} {b : β}
    (h : l[i]? = some b) : ((l.modify i g).map f).sum + f b = (l.map f).sum + f (g b) := by
  induction l generalizing i with
  | nil => cases h
  | cons a l ih =>
    cases i with
    | zero =>
      cases h
      rw [List.modify_zero_cons, List.map_cons, List.map_cons, List.sum_cons, List.sum_cons]
      omega
    | succ i =>
      have hrest := ih (i := i) h
      rw [List.modify_succ_cons, List.map_cons, List.map_cons, List.sum_cons, List.sum_cons]
      omega

theorem load_move (t : PromiseTail α) {i : Nat} {source target : LinkStatus} (h : source ≠ .settled)
    {f : α → α} {l : Link α} (hl : t.links[i]? = some l) (hs : l.status = source)
    (hfree : t.free l.after = true) (weight : α → Nat) :
    (t.move i source target h f).load weight + weight l.value =
      t.load weight + if target = .settled then 0 else weight (f l.value) := by
  have hlinks : (t.move i source target h f).links =
      t.links.modify i fun q => { q with value := f l.value, status := target } := by
    unfold move
    split
    · rename_i hnone
      rw [hl] at hnone
      cases hnone
    · rename_i q hq
      rw [hl] at hq
      cases hq
      rw [dif_pos ⟨hs, hfree⟩]
      rfl
  have hsum := sum_modify (fun q : Link α => if q.status = .settled then 0 else weight q.value)
    (fun q => { q with value := f l.value, status := target }) t.links hl
  dsimp only at hsum
  rw [if_neg (by rw [hs]; exact h)] at hsum
  unfold load
  rw [hlinks]
  exact hsum

theorem load_start (t : PromiseTail α) {i : Nat} {f : α → α} {l : Link α}
    (hl : t.links[i]? = some l) (hs : l.status = .waiting) (hfree : t.free l.after = true)
    (weight : α → Nat) (hf : weight (f l.value) = weight l.value) :
    (t.start i f).load weight = t.load weight := by
  have hmove : (t.start i f).load weight + weight l.value = t.load weight + weight (f l.value) :=
    t.load_move (by nofun) hl hs hfree weight
  rw [hf] at hmove
  exact Nat.add_right_cancel hmove

theorem load_edit (t : PromiseTail α) {i : Nat} {f : α → α} {l : Link α}
    (hl : t.links[i]? = some l) (hs : l.status = .running) (weight : α → Nat)
    (hf : weight (f l.value) = weight l.value) : (t.edit i f).load weight = t.load weight := by
  have hfree := t.free_of_running hl (by rw [hs]; nofun)
  have hmove : (t.edit i f).load weight + weight l.value = t.load weight + weight (f l.value) :=
    t.load_move (by nofun) hl hs hfree weight
  rw [hf] at hmove
  exact Nat.add_right_cancel hmove

theorem load_settle (t : PromiseTail α) {i : Nat} (f : α → α) {l : Link α}
    (hl : t.links[i]? = some l) (hs : l.status = .running) (weight : α → Nat) :
    (t.settle i f).load weight + weight l.value = t.load weight :=
  t.load_move (by nofun) hl hs (t.free_of_running hl (by rw [hs]; nofun)) weight

end PromiseTail

end Lib
end PiCloud
