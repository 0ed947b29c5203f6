import Mathlib.Data.List.Range
import Mathlib.Logic.Relation

/-!
# Lib.Outbox

A queue of calls, each of which is to be answered, and what is sent for them.

* `Outbox.Move`: a call comes in, is admitted, taken, sent or answered.
* `Outbox.Inv`: no call is lost or answered twice; what is sent follows the admissions.
* `Outbox.Inv.moves`: kept by any number of moves.
-/

namespace PiCloud
namespace Lib

/-- A call and its number. -/
structure Ticket (α : Type) where
  number : Nat
  item : α
deriving DecidableEq

/-- `held` are the calls in hand, and `unsent` those of them that were not sent. -/
structure Outbox (α β : Type) where
  issued : Nat
  waiting : List (Ticket α)
  queue : List (Ticket α)
  held : List (Ticket α)
  unsent : List (Ticket α)
  admitted : List (Ticket α)
  sent : List (Ticket α)
  answers : List (Nat × β)

namespace Outbox

variable {α β : Type}

def answered (xs : List (Ticket α)) (b : β) : List (Nat × β) := xs.map fun x => (x.number, b)

inductive Move : Outbox α β → Outbox α β → Prop where
  | refuseCall (s : Outbox α β) (b : β) :
    Move s { s with issued := s.issued + 1, answers := s.answers ++ [(s.issued, b)] }
  | waitCall (s : Outbox α β) (x : α) :
    Move s { s with issued := s.issued + 1, waiting := s.waiting ++ [⟨s.issued, x⟩] }
  | queueCall (s : Outbox α β) (x : α) :
    Move s { s with
      issued := s.issued + 1
      queue := s.queue ++ [⟨s.issued, x⟩]
      admitted := s.admitted ++ [⟨s.issued, x⟩] }
  | queue (s : Outbox α β) (x : Ticket α) (rest : List (Ticket α)) : s.waiting = x :: rest →
    Move s { s with waiting := rest, queue := s.queue ++ [x], admitted := s.admitted ++ [x] }
  | refuse (s : Outbox α β) (x : Ticket α) (rest : List (Ticket α)) (b : β) : s.waiting = x :: rest →
    Move s { s with waiting := rest, answers := s.answers ++ [(x.number, b)] }
  | take (s : Outbox α β) (k : Nat) : s.held = [] → s.unsent = [] →
    Move s { s with queue := s.queue.drop k, held := s.queue.take k, unsent := s.queue.take k }
  | send (s : Outbox α β) (k : Nat) :
    Move s { s with sent := s.sent ++ s.unsent.take k, unsent := [] }
  | answer (s : Outbox α β) (b : β) :
    Move s { s with answers := s.answers ++ answered s.held b, held := [], unsent := [] }
  | reject (s : Outbox α β) (b : β) :
    Move s { s with answers := s.answers ++ answered s.queue b, queue := [] }

abbrev Moves : Outbox α β → Outbox α β → Prop := Relation.ReflTransGen Move

def unanswered (s : Outbox α β) : List (Ticket α) := s.waiting ++ s.held ++ s.queue

def numbers (xs : List (Ticket α)) : List Nat := xs.map Ticket.number

structure Inv (s : Outbox α β) : Prop where
  calls : ∀ n, (s.answers.map Prod.fst).count n + (numbers s.unanswered).count n =
    (List.range s.issued).count n
  admitted : ∀ n, (numbers s.admitted).count n + (numbers s.waiting).count n ≤
    (List.range s.issued).count n
  order : (s.sent ++ s.unsent ++ s.queue).Sublist s.admitted

@[simp] theorem answered_numbers (xs : List (Ticket α)) (b : β) :
    (answered xs b).map Prod.fst = numbers xs := by
  simp [answered, numbers]

@[simp] theorem numbers_append (xs ys : List (Ticket α)) :
    numbers (xs ++ ys) = numbers xs ++ numbers ys := List.map_append

@[simp] theorem numbers_cons (x : Ticket α) (xs : List (Ticket α)) :
    numbers (x :: xs) = x.number :: numbers xs := rfl

@[simp] theorem numbers_nil : numbers ([] : List (Ticket α)) = [] := rfl

theorem count_take_drop (xs : List (Ticket α)) (k n : Nat) :
    (numbers (xs.take k)).count n + (numbers (xs.drop k)).count n = (numbers xs).count n := by
  rw [← List.count_append, ← numbers_append, List.take_append_drop]

theorem Inv.move {s t : Outbox α β} (h : Inv s) (hmove : Move s t) : Inv t := by
  obtain ⟨hcalls, hadmitted, horder⟩ := h
  simp only [unanswered, numbers_append, List.count_append] at hcalls
  cases hmove with
  | refuseCall b =>
    refine ⟨?_, ?_, horder⟩
    · intro n
      have hn := hcalls n
      simp only [unanswered, numbers_append, List.count_append, List.map_append, List.map_cons,
        List.map_nil, List.range_succ]
      omega
    · intro n
      have hn := hadmitted n
      simp only [List.range_succ, List.count_append]
      omega
  | waitCall x =>
    refine ⟨?_, ?_, horder⟩
    · intro n
      have hn := hcalls n
      simp only [unanswered, numbers_append, numbers_cons, numbers_nil, List.count_append,
        List.range_succ]
      omega
    · intro n
      have hn := hadmitted n
      simp only [numbers_append, numbers_cons, numbers_nil, List.range_succ, List.count_append]
      omega
  | queueCall x =>
    refine ⟨?_, ?_, ?_⟩
    · intro n
      have hn := hcalls n
      simp only [unanswered, numbers_append, numbers_cons, numbers_nil, List.count_append,
        List.range_succ]
      omega
    · intro n
      have hn := hadmitted n
      simp only [numbers_append, numbers_cons, numbers_nil, List.range_succ, List.count_append]
      omega
    · simp only [← List.append_assoc]
      exact horder.append (List.Sublist.refl _)
  | queue x rest hw =>
    rw [hw] at hcalls hadmitted
    simp only [numbers_cons, List.count_cons] at hcalls hadmitted
    refine ⟨?_, ?_, ?_⟩
    · intro n
      have hn := hcalls n
      simp only [unanswered, numbers_append, numbers_cons, numbers_nil, List.count_append,
        List.count_cons, List.count_nil]
      omega
    · intro n
      have hn := hadmitted n
      simp only [numbers_append, numbers_cons, numbers_nil, List.count_append, List.count_cons,
        List.count_nil]
      omega
    · simp only [← List.append_assoc]
      exact horder.append (List.Sublist.refl _)
  | refuse x rest b hw =>
    rw [hw] at hcalls hadmitted
    simp only [numbers_cons, List.count_cons] at hcalls hadmitted
    refine ⟨?_, ?_, horder⟩
    · intro n
      have hn := hcalls n
      simp only [unanswered, numbers_append, List.map_append, List.map_cons, List.map_nil,
        List.count_append, List.count_cons, List.count_nil]
      omega
    · intro n
      have hn := hadmitted n
      simp only
      omega
  | take k hheld hunsent =>
    rw [hheld] at hcalls
    rw [hunsent] at horder
    refine ⟨?_, hadmitted, ?_⟩
    · intro n
      have hn := hcalls n
      have hk := count_take_drop s.queue k n
      simp only [unanswered, numbers_append, numbers_nil, List.count_append, List.count_nil] at hn ⊢
      omega
    · simpa using horder
  | send k =>
    refine ⟨?_, hadmitted, ?_⟩
    · intro n
      simpa only [unanswered, numbers_append, List.count_append] using hcalls n
    · simp only [List.append_nil]
      refine List.Sublist.trans (List.Sublist.append ?_ (List.Sublist.refl _)) horder
      exact (List.Sublist.refl _).append (List.take_sublist k _)
  | answer b =>
    refine ⟨?_, hadmitted, ?_⟩
    · intro n
      have hn := hcalls n
      simp only [unanswered, numbers_append, numbers_nil, List.map_append, answered_numbers,
        List.count_append, List.count_nil]
      omega
    · refine List.Sublist.trans (List.Sublist.append ?_ (List.Sublist.refl _)) horder
      exact (List.Sublist.refl _).append (List.nil_sublist _)
  | reject b =>
    refine ⟨?_, hadmitted, ?_⟩
    · intro n
      have hn := hcalls n
      simp only [unanswered, numbers_append, numbers_nil, List.map_append, answered_numbers,
        List.count_append, List.count_nil]
      omega
    · exact ((List.Sublist.refl _).append (List.nil_sublist _)).trans horder

theorem Inv.moves {s t : Outbox α β} (h : Inv s) (hmoves : Moves s t) : Inv t := by
  induction hmoves with
  | refl => exact h
  | tail _ hmove ih => exact ih.move hmove

/-! ## What it says -/

theorem count_range_le (m n : Nat) : (List.range m).count n ≤ 1 :=
  List.nodup_iff_count.mp List.nodup_range n

theorem Inv.answered_once {s : Outbox α β} (h : Inv s) : (s.answers.map Prod.fst).Nodup := by
  rw [List.nodup_iff_count]
  intro n
  have hn := h.calls n
  have hone := count_range_le s.issued n
  omega

theorem Inv.admitted_once {s : Outbox α β} (h : Inv s) : (numbers s.admitted).Nodup := by
  rw [List.nodup_iff_count]
  intro n
  have hn := h.admitted n
  have hone := count_range_le s.issued n
  omega

theorem Inv.sent_sublist {s : Outbox α β} (h : Inv s) : s.sent.Sublist s.admitted :=
  ((List.sublist_append_left _ _).trans (List.sublist_append_left _ _)).trans h.order

theorem Inv.sent_once {s : Outbox α β} (h : Inv s) : (numbers s.sent).Nodup :=
  h.admitted_once.sublist (h.sent_sublist.map _)

theorem Inv.answered_iff {s : Outbox α β} (h : Inv s) {n : Nat} (hn : n < s.issued) :
    n ∈ s.answers.map Prod.fst ↔ n ∉ numbers s.unanswered := by
  have hcalls := h.calls n
  have hone := count_range_le s.issued n
  have hpos : 0 < (List.range s.issued).count n := List.count_pos_iff.mpr (List.mem_range.mpr hn)
  rw [← List.count_pos_iff, ← List.count_eq_zero]
  omega

end Outbox

end Lib
end PiCloud
