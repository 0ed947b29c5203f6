import Mathlib.Data.List.Forall2

/-!
# Lib.Outcome

Programs that change a state and may throw; a throw leaves the state as it is by then.

* `Ends x s Q E`: run from `s`, the program returns with `Q` of its value and its state, or throws
  with `E` of its error and its state.
* `Keeps x I`: what holds of the state before the program holds of the state after it.
* `EndsAlike x R`: from related states the program ends in the same way.
-/

namespace PiCloud
namespace Lib

abbrev Program (σ α : Type) := ExceptT String (StateM σ) α

variable {σ α β : Type}

namespace Program

def run (x : Program σ α) (s : σ) : Except String α × σ := x s

theorem run_bind (x : Program σ α) (f : α → Program σ β) (s : σ) :
    run (x >>= f) s =
      match run x s with
      | (.ok a, s') => run (f a) s'
      | (.error e, s') => (.error e, s') := by
  show (ExceptT.bindCont f (x s).1) (x s).2 = _
  unfold run
  rcases x s with ⟨a | e, s'⟩ <;> rfl

end Program

def Ends (x : Program σ α) (s : σ) (Q : α → σ → Prop) (E : String → σ → Prop) : Prop :=
  match x.run s with
  | (.ok a, s') => Q a s'
  | (.error e, s') => E e s'

theorem Ends.bind {x : Program σ α} {f : α → Program σ β} {s : σ} {Q : α → σ → Prop}
    {Q' : β → σ → Prop} {E : String → σ → Prop} (hx : Ends x s Q E)
    (hf : ∀ a s', Q a s' → Ends (f a) s' Q' E) : Ends (x >>= f) s Q' E := by
  unfold Ends at *
  rw [Program.run_bind]
  rcases hr : x.run s with ⟨e | a, s'⟩
  · rw [hr] at hx
    exact hx
  · rw [hr] at hx
    exact hf a s' hx

theorem Ends.imp {x : Program σ α} {s : σ} {Q Q' : α → σ → Prop} {E E' : String → σ → Prop}
    (h : Ends x s Q E) (hq : ∀ a s', Q a s' → Q' a s') (he : ∀ e s', E e s' → E' e s') :
    Ends x s Q' E' := by
  unfold Ends at *
  rcases hr : x.run s with ⟨e | a, s'⟩
  · rw [hr] at h
    exact he e s' h
  · rw [hr] at h
    exact hq a s' h

theorem Ends.pure {a : α} {s : σ} {Q : α → σ → Prop} {E : String → σ → Prop} (h : Q a s) :
    Ends (pure a) s Q E := h

theorem Ends.throw {e : String} {s : σ} {Q : α → σ → Prop} {E : String → σ → Prop} (h : E e s) :
    Ends (throw e) s Q E := h

theorem Ends.get {s : σ} {Q : σ → σ → Prop} {E : String → σ → Prop} (h : Q s s) :
    Ends (getThe σ) s Q E := h

theorem Ends.set {s s' : σ} {Q : PUnit → σ → Prop} {E : String → σ → Prop} (h : Q ⟨⟩ s') :
    Ends (MonadStateOf.set s') s Q E := h

theorem Ends.modify {f : σ → σ} {s : σ} {Q : PUnit → σ → Prop} {E : String → σ → Prop}
    (h : Q ⟨⟩ (f s)) : Ends (modifyThe σ f) s Q E := h

theorem Ends.foldlM_from {f : β → α → Program σ β} {E : String → σ → Prop}
    (I : List α → β → σ → Prop) (l : List α)
    (hf : ∀ past a b s, a ∈ l → I past b s → Ends (f b a) s (I (past ++ [a])) E)
    {past : List α} {b : β} {s : σ} (h : I past b s) :
    Ends (l.foldlM f b) s (I (past ++ l)) E := by
  induction l generalizing past b s with
  | nil =>
    rw [List.append_nil]
    exact .pure h
  | cons a l ih =>
    rw [List.foldlM_cons]
    refine (hf past a b s List.mem_cons_self h).bind fun b' s' h' => ?_
    have := ih (fun past x b s hx => hf past x b s (List.mem_cons_of_mem a hx)) h'
    rwa [List.append_assoc] at this

theorem Ends.foldlM {f : β → α → Program σ β} {E : String → σ → Prop}
    (I : List α → β → σ → Prop) (l : List α)
    (hf : ∀ past a b s, a ∈ l → I past b s → Ends (f b a) s (I (past ++ [a])) E) {b : β} {s : σ}
    (h : I [] b s) : Ends (l.foldlM f b) s (I l) E :=
  Ends.foldlM_from I l hf h

theorem Ends.mapM {f : α → Program σ β} {E : String → σ → Prop} {I : σ → Prop} (R : α → β → Prop)
    (hf : ∀ a s, I s → Ends (f a) s (fun b s' => R a b ∧ I s') E) (l : List α) {s : σ} (h : I s) :
    Ends (l.mapM f) s (fun bs s' => List.Forall₂ R l bs ∧ I s') E := by
  induction l generalizing s with
  | nil =>
    rw [List.mapM_nil]
    exact .pure ⟨.nil, h⟩
  | cons a l ih =>
    rw [List.mapM_cons]
    refine (hf a s h).bind fun b s' hb => ?_
    refine (ih hb.2).bind fun bs s'' hbs => ?_
    exact .pure ⟨.cons hb.1 hbs.1, hbs.2⟩

theorem Ends.returns {x : Program σ α} {s : σ} {Q : α → σ → Prop} (h : Ends x s Q fun _ _ => False) :
    ∃ a t, x.run s = (.ok a, t) ∧ Q a t := by
  unfold Ends at h
  rcases hr : x.run s with ⟨e | a, t⟩
  · rw [hr] at h
    exact h.elim
  · rw [hr] at h
    exact ⟨a, t, rfl, h⟩

theorem Ends.total {x : Program σ α} {s : σ} {Q : α → σ → Prop} {E : String → σ → Prop}
    (h : Ends x s Q E) (hreturns : Ends x s (fun _ _ => True) fun _ _ => False) :
    Ends x s Q fun _ _ => False := by
  obtain ⟨a, t, hr, -⟩ := hreturns.returns
  unfold Ends at *
  rw [hr] at h ⊢
  exact h

/-! ## What a program keeps -/

def Keeps (x : Program σ α) (I : σ → Prop) : Prop := ∀ s, I s → I (x.run s).2

namespace Keeps

variable {I : σ → Prop}

theorem pure (a : α) : Keeps (Pure.pure a : Program σ α) I := fun _ h => h

theorem throw (e : String) : Keeps (MonadExcept.throw e : Program σ α) I := fun _ h => h

theorem bind {x : Program σ α} {f : α → Program σ β} (hx : Keeps x I) (hf : ∀ a, Keeps (f a) I) :
    Keeps (x >>= f) I := by
  intro s h
  have hs := hx s h
  rw [Program.run_bind]
  rcases hr : x.run s with ⟨e | a, s'⟩
  · rw [hr] at hs
    exact hs
  · rw [hr] at hs
    exact hf a s' hs

theorem map {x : Program σ α} (f : α → β) (hx : Keeps x I) : Keeps (f <$> x) I := by
  rw [map_eq_pure_bind]
  exact hx.bind fun _ => .pure _

theorem ite {c : Prop} [Decidable c] {x y : Program σ α} (hx : Keeps x I) (hy : Keeps y I) :
    Keeps (if c then x else y) I := by
  split
  · exact hx
  · exact hy

theorem foldlM {f : β → α → Program σ β} (hf : ∀ b a, Keeps (f b a) I) (l : List α) (b : β) :
    Keeps (l.foldlM f b) I := by
  induction l generalizing b with
  | nil => exact .pure b
  | cons a l ih =>
    rw [List.foldlM_cons]
    exact (hf b a).bind ih

theorem mapM {f : α → Program σ β} (hf : ∀ a, Keeps (f a) I) (l : List α) : Keeps (l.mapM f) I := by
  induction l with
  | nil =>
    rw [List.mapM_nil]
    exact .pure _
  | cons a l ih =>
    rw [List.mapM_cons]
    exact (hf a).bind fun _ => ih.bind fun _ => .pure _

theorem ends {x : Program σ α} {s : σ} {Q : α → σ → Prop} {E : String → σ → Prop}
    (h : Ends x s Q E) (hk : Keeps x I) (hs : I s) :
    Ends x s (fun a s' => Q a s' ∧ I s') fun e s' => E e s' ∧ I s' := by
  have hI := hk s hs
  unfold Ends at *
  rcases hr : x.run s with ⟨e | a, s'⟩
  · rw [hr] at h hI
    exact ⟨h, hI⟩
  · rw [hr] at h hI
    exact ⟨h, hI⟩

end Keeps

/-! ## Runs that agree -/

def EndsAlike (x : Program σ α) (R : σ → σ → Prop) : Prop :=
  ∀ s s', R s s' → (x.run s).1 = (x.run s').1 ∧ R (x.run s).2 (x.run s').2

namespace EndsAlike

variable {R : σ → σ → Prop}

theorem pure (a : α) : EndsAlike (Pure.pure a : Program σ α) R := fun _ _ h => ⟨rfl, h⟩

theorem throw (e : String) : EndsAlike (MonadExcept.throw e : Program σ α) R := fun _ _ h => ⟨rfl, h⟩

theorem bind {x : Program σ α} {f : α → Program σ β} (hx : EndsAlike x R) (hf : ∀ a, EndsAlike (f a) R) :
    EndsAlike (x >>= f) R := by
  intro s s' h
  obtain ⟨hends, hR⟩ := hx s s' h
  rw [Program.run_bind, Program.run_bind]
  rcases hs : x.run s with ⟨e | a, t⟩ <;> rcases hs' : x.run s' with ⟨e' | a', t'⟩
    <;> rw [hs, hs'] at hends hR <;> cases hends
  · exact ⟨rfl, hR⟩
  · exact hf a t t' hR

theorem map {x : Program σ α} (f : α → β) (hx : EndsAlike x R) : EndsAlike (f <$> x) R := by
  rw [map_eq_pure_bind]
  exact hx.bind fun _ => .pure _

theorem ite {c : Prop} [Decidable c] {x y : Program σ α} (hx : EndsAlike x R) (hy : EndsAlike y R) :
    EndsAlike (if c then x else y) R := by
  split
  · exact hx
  · exact hy

theorem of_returns {x : Program σ α}
    (h : ∀ s s', R s s' → ∃ a t t', x.run s = (.ok a, t) ∧ x.run s' = (.ok a, t') ∧ R t t') :
    EndsAlike x R := by
  intro s s' hR
  obtain ⟨a, t, t', hs, hs', hR'⟩ := h s s' hR
  rw [hs, hs']
  exact ⟨rfl, hR'⟩

end EndsAlike

end Lib
end PiCloud
