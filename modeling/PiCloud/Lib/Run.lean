import Mathlib.Control.Basic
import Mathlib.Data.Option.Basic
import Mathlib.Logic.Relation

/-!
# Lib.Run

Runs of a labelled transition system, and the one induction every safety result uses.

* `System`: the initial states and the labelled steps.
* `Reach S as s`: some run of `S` takes the labels `as`, oldest first, and ends in `s`.
* `Reach.invariant`: what holds initially and is kept by every step holds in every reached state.
* `Reach.foldlM`, `Reach.guarded`: a run that is computed from its labels.
* `Steps`: from a state to a later one.
* `System.guard`: the runs whose steps all meet a condition on the state before the step.
* `bind_some`, `guard_some`, `ite_some`, `mapM_some`: a computed step that ended well, taken apart.
-/

namespace PiCloud
namespace Lib

structure System (σ α : Type) where
  init : σ → Prop
  step : σ → α → σ → Prop

inductive Reach {σ α : Type} (S : System σ α) : List α → σ → Prop where
  | init {s : σ} : S.init s → Reach S [] s
  | next {as : List α} {s t : σ} {a : α} : Reach S as s → S.step s a t → Reach S (as ++ [a]) t

theorem Reach.invariant {σ α : Type} {S : System σ α} (Inv : σ → Prop)
    (h0 : ∀ s, S.init s → Inv s) (hs : ∀ s a t, Inv s → S.step s a t → Inv t)
    {as : List α} {s : σ} (h : Reach S as s) : Inv s := by
  induction h with
  | init hi => exact h0 _ hi
  | next _ hst ih => exact hs _ _ _ ih hst

/-- The same system, with every step required to meet `G` in the state before it. -/
def System.guard {σ α : Type} (S : System σ α) (G : σ → α → Prop) : System σ α where
  init := S.init
  step s a t := G s a ∧ S.step s a t

theorem Reach.of_guard {σ α : Type} {S : System σ α} {G : σ → α → Prop}
    {as : List α} {s : σ} (h : Reach (S.guard G) as s) : Reach S as s := by
  induction h with
  | init hi => exact .init hi
  | next _ hst ih => exact .next ih hst.2

/-- A run given by its labels, where `act` computes the steps. -/
theorem Reach.foldlM {σ α : Type} {S : System σ α} {act : σ → α → Option σ}
    (hact : ∀ s a t, act s a = some t → S.step s a t) {as : List α} {s : σ} (h : Reach S as s)
    (bs : List α) {t : σ} (hr : bs.foldlM act s = some t) : Reach S (as ++ bs) t := by
  induction bs generalizing as s with
  | nil =>
    cases hr
    rwa [List.append_nil]
  | cons b bs ih =>
    obtain ⟨s', hs', hr'⟩ := Option.bind_eq_some_iff.mp hr
    have := ih (h.next (hact s b s' hs')) hr'
    rwa [List.append_assoc] at this

def guarded {σ α : Type} (act : σ → α → Option σ) (G : σ → α → Prop) [∀ s a, Decidable (G s a)]
    (s : σ) (a : α) : Option σ :=
  if G s a then act s a else none

theorem Reach.guarded {σ α : Type} {S : System σ α} {act : σ → α → Option σ} {G : σ → α → Prop}
    [∀ s a, Decidable (G s a)] (hact : ∀ s a t, act s a = some t → S.step s a t) {s t : σ}
    (h : S.init s) {as : List α} (hr : as.foldlM (guarded act G) s = some t) :
    Reach (S.guard G) as t :=
  (Reach.init (S := S.guard G) h).foldlM
    (fun s a t hs => (Option.ite_none_right_eq_some.mp hs).imp_right (hact s a t)) as hr

/-- `t` is reached from `s` by finitely many steps. -/
inductive Steps {σ α : Type} (S : System σ α) : σ → σ → Prop where
  | refl {s : σ} : Steps S s s
  | snoc {s t u : σ} {a : α} : Steps S s t → S.step t a u → Steps S s u

theorem Reach.steps {σ α : Type} {S : System σ α} {as : List α} {s t : σ} (h : Reach S as s)
    (hst : Steps S s t) : ∃ bs, Reach S bs t := by
  induction hst with
  | refl => exact ⟨as, h⟩
  | snoc _ hu ih =>
    obtain ⟨bs, hr⟩ := ih
    exact ⟨_, hr.next hu⟩

theorem bind_some {β γ : Type} {x : Option β} {f : β → Option γ} {c : γ}
    (h : (x >>= f) = some c) : ∃ b, x = some b ∧ f b = some c :=
  Option.bind_eq_some_iff.mp h

theorem guard_some {γ : Type} {p : Prop} [Decidable p] {f : Unit → Option γ} {c : γ}
    (h : ((guard p : Option Unit) >>= f) = some c) : p ∧ f () = some c := by
  obtain ⟨⟨⟩, hg, hf⟩ := bind_some h
  by_cases hp : p
  · exact ⟨hp, hf⟩
  · rw [guard, if_neg hp] at hg
    cases hg

theorem ite_some {γ : Type} {p : Prop} [Decidable p] {b c : γ}
    (h : (if p then some b else none) = some c) : p ∧ b = c := by
  split at h
  · exact ⟨‹_›, Option.some.inj h⟩
  · cases h

theorem mapM_some {β γ : Type} {f : β → Option γ} {l : List β} {r : List γ}
    (h : l.mapM f = some r) : l.map f = r.map some := by
  induction l generalizing r with
  | nil =>
    cases h
    rfl
  | cons b l ih =>
    rw [List.mapM_cons] at h
    obtain ⟨c, hc, h⟩ := bind_some h
    obtain ⟨cs, hcs, h⟩ := bind_some h
    cases h
    rw [List.map_cons, List.map_cons, hc, ih hcs]

end Lib
end PiCloud
