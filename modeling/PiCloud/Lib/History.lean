import Mathlib.Data.List.Basic
import Mathlib.Data.List.Induction
import Mathlib.Data.List.Nodup

/-!
# Lib.History

What holds of every event of a history, given the events before it. A history has its newest event
last.

* `Always P h`: `P` holds of each event of `h` and its past.
* `Always.snoc`: one more event.
* `Always.nodup`: what each event gives, when it gives only what is new.
-/

namespace PiCloud
namespace Lib

variable {ε : Type}

theorem mem_snoc {h : List ε} {d e : ε} : d ∈ h ++ [e] ↔ d ∈ h ∨ d = e := by
  rw [List.mem_append, List.mem_singleton]

theorem mem_of_mem_snoc {h : List ε} {d e : ε} (hd : d ∈ h ++ [e]) (hne : d ≠ e) : d ∈ h :=
  (mem_snoc.mp hd).resolve_right hne

theorem pairwise_snoc {R : ε → ε → Prop} {h : List ε} {e : ε} (hold : h.Pairwise R)
    (hnew : ∀ d ∈ h, R d e) : (h ++ [e]).Pairwise R := by
  refine List.pairwise_append.mpr ⟨hold, List.pairwise_singleton .., fun d hd x hx => ?_⟩
  rw [List.mem_singleton.mp hx]
  exact hnew d hd

/-- Members are told apart by `f`, and the new one from all of them. -/
theorem unique_snoc {κ : Type} {f : ε → κ} {h : List ε} {e : ε}
    (hold : ∀ c ∈ h, ∀ d ∈ h, f c = f d → c = d) (hnew : ∀ d ∈ h, f d ≠ f e) :
    ∀ c ∈ h ++ [e], ∀ d ∈ h ++ [e], f c = f d → c = d := by
  intro c hc d hd heq
  rw [mem_snoc] at hc hd
  obtain hc | rfl := hc <;> obtain hd | rfl := hd
  · exact hold c hc d hd heq
  · exact absurd heq (hnew c hc)
  · exact absurd heq.symm (hnew d hd)
  · rfl

def Always (P : List ε → ε → Prop) (h : List ε) : Prop :=
  ∀ past e later, h = past ++ e :: later → P past e

namespace Always

variable {P : List ε → ε → Prop} {h : List ε} {e : ε}

theorem nil : Always P [] := by
  intro past e later heq
  simp at heq

theorem snoc (hall : Always P h) (he : P h e) : Always P (h ++ [e]) := by
  intro past e' later heq
  obtain rfl | ⟨later, x, rfl⟩ := List.eq_nil_or_concat' later
  · obtain ⟨rfl, hee⟩ := List.append_inj' heq rfl
    cases hee
    exact he
  · rw [← List.cons_append, ← List.append_assoc] at heq
    exact hall past e' later (List.append_inj' heq rfl).1

theorem mono {Q : List ε → ε → Prop} (hall : Always P h)
    (himp : ∀ past e, P past e → Q past e) : Always Q h :=
  fun past e later heq => himp past e (hall past e later heq)

theorem nodup {β : Type} {f : ε → List β} :
    ∀ {h : List ε}, Always (fun past e => (f e).Nodup ∧ ∀ b ∈ f e, b ∉ past.flatMap f) h →
      (h.flatMap f).Nodup := by
  intro h
  induction h using List.reverseRecOn with
  | nil => exact fun _ => List.nodup_nil
  | append_singleton h e ih =>
    intro hall
    obtain ⟨hnodup, hfresh⟩ := hall h e [] rfl
    rw [List.flatMap_append, List.flatMap_singleton]
    refine List.nodup_append.mpr ⟨ih fun past e' later heq => ?_, hnodup, ?_⟩
    · exact hall past e' (later ++ [e]) (by rw [heq, List.append_assoc, List.cons_append])
    · rintro a ha b hb rfl
      exact hfresh a hb ha

end Always

end Lib
end PiCloud
