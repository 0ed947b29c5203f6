import Mathlib.Algebra.Ring.Nat
import Mathlib.Data.List.Basic

/-!
# Lib.Utf16

Strings as lists of UTF-16 code units, the way JavaScript sees them: any unit may stand anywhere,
so a surrogate can be unpaired.

* `points`: the string cut into code points, a surrogate pair being one of them.
* `utf8Bytes`: the length of its UTF-8 encoding; an unpaired surrogate is encoded as U+FFFD.
* `jsonString`: the text of a JSON string literal; an unpaired surrogate is escaped.
-/

namespace PiCloud
namespace Lib

abbrev CodeUnit := UInt16

abbrev JsString := List CodeUnit

instance lawfulBEq_jsString : LawfulBEq JsString := inferInstance

-- Unit by unit of the string, not of all units that there are.
instance (priority := high) {s : JsString} {p : CodeUnit → Prop} [DecidablePred p] :
    Decidable (∀ u ∈ s, p u) := List.decidableBAll p s

def isHigh (u : CodeUnit) : Bool := 0xD800 ≤ u && u ≤ 0xDBFF

def isLow (u : CodeUnit) : Bool := 0xDC00 ≤ u && u ≤ 0xDFFF

/-- The code points of a string, each as the one or two units that write it. -/
def points : JsString → List JsString
  | [] => []
  | [u] => [[u]]
  | u :: v :: rest =>
    if isHigh u && isLow v then [u, v] :: points rest else [u] :: points (v :: rest)

def pointBytes : JsString → Nat
  | [u] => if u < 0x80 then 1 else if u < 0x800 then 2 else 3
  | _ => 4

def utf8Bytes (s : JsString) : Nat := ((points s).map pointBytes).sum

theorem points_cons (u : CodeUnit) (s : JsString) :
    (∃ v rest, s = v :: rest ∧ isHigh u = true ∧ isLow v = true ∧
      points (u :: s) = [u, v] :: points rest) ∨ points (u :: s) = [u] :: points s := by
  cases s with
  | nil => right; simp [points]
  | cons v rest =>
    by_cases h : (isHigh u && isLow v) = true
    · left
      simp only [Bool.and_eq_true] at h
      exact ⟨v, rest, rfl, h.1, h.2, by simp [points, h]⟩
    · right
      simp [points, h]

theorem points_induction {P : JsString → Prop} (nil : P [])
    (pair : ∀ u v rest, points (u :: v :: rest) = [u, v] :: points rest → P rest →
      P (u :: v :: rest))
    (single : ∀ u rest, points (u :: rest) = [u] :: points rest → P rest → P (u :: rest)) :
    ∀ s, P s := by
  suffices h : ∀ n s, s.length ≤ n → P s from fun s => h s.length s (Nat.le_refl _)
  intro n
  induction n with
  | zero =>
    intro s hs
    have : s = [] := List.length_eq_zero_iff.mp (by omega)
    subst this; exact nil
  | succ n ih =>
    intro s hs
    cases s with
    | nil => exact nil
    | cons u s =>
      simp only [List.length_cons] at hs
      rcases points_cons u s with ⟨v, rest, rfl, _, _, h⟩ | h
      · simp only [List.length_cons] at hs
        exact pair u v rest h (ih rest (by omega))
      · exact single u s h (ih s (by omega))

theorem surrogates_of_points {u v : CodeUnit} {s rest : JsString}
    (h : points (u :: s) = [u, v] :: points rest) : isHigh u = true ∧ isLow v = true := by
  rcases points_cons u s with ⟨v', rest', -, hu, hv, hp⟩ | hp
  · rw [hp] at h
    simp only [List.cons.injEq, and_true, true_and] at h
    exact ⟨hu, h.1 ▸ hv⟩
  · rw [hp] at h
    simp at h

theorem points_pair {u v : CodeUnit} (hu : isHigh u = true) (hv : isLow v = true) (s : JsString) :
    points (u :: v :: s) = [u, v] :: points s := by
  simp [points, hu, hv]

@[simp] theorem points_nil : points [] = [] := rfl

theorem points_flatten (s : JsString) : (points s).flatten = s := by
  induction s using points_induction with
  | nil => rfl
  | pair u v rest h ih => rw [h, List.flatten_cons, ih]; rfl
  | single u rest h ih => rw [h, List.flatten_cons, ih]; rfl

theorem points_drop (s : JsString) : ∀ k, points ((points s).drop k).flatten = (points s).drop k := by
  induction s using points_induction with
  | nil => intro k; simp
  | pair u v rest h ih =>
    intro k
    cases k with
    | zero => simp [points_flatten]
    | succ k => rw [h, List.drop_succ_cons]; exact ih k
  | single u rest h ih =>
    intro k
    cases k with
    | zero => simp [points_flatten]
    | succ k => rw [h, List.drop_succ_cons]; exact ih k

theorem pointBytes_pos (p : JsString) : 0 < pointBytes p := by
  unfold pointBytes
  split
  · split
    · omega
    · split <;> omega
  · omega

theorem length_points_le (s : JsString) : (points s).length ≤ utf8Bytes s := by
  have h : ∀ l : List JsString, l.length ≤ (l.map pointBytes).sum := by
    intro l
    induction l with
    | nil => simp
    | cons p l ih =>
      have := pointBytes_pos p
      simp only [List.length_cons, List.map_cons, List.sum_cons]
      omega
  exact h (points s)

theorem length_le_utf8Bytes (s : JsString) : s.length ≤ utf8Bytes s := by
  unfold utf8Bytes
  induction s using points_induction with
  | nil => simp
  | pair u v rest h ih =>
    rw [h]
    simp only [List.length_cons, List.map_cons, List.sum_cons, pointBytes]
    omega
  | single u rest h ih =>
    have := pointBytes_pos [u]
    rw [h]
    simp only [List.length_cons, List.map_cons, List.sum_cons]
    omega

theorem utf8Bytes_drop_le (s : JsString) (k : Nat) :
    utf8Bytes ((points s).drop k).flatten ≤ utf8Bytes s := by
  unfold utf8Bytes
  rw [points_drop]
  have := congrArg (fun l => (l.map pointBytes).sum) (List.take_append_drop k (points s))
  simp only [List.map_append, List.sum_append] at this
  omega

theorem pointBytes_single (u : CodeUnit) : pointBytes [u] ≤ 3 := by
  simp only [pointBytes]
  split
  · omega
  · split <;> omega

theorem utf8Bytes_le_append (s t : JsString) : utf8Bytes s ≤ utf8Bytes (s ++ t) := by
  induction s using points_induction with
  | nil => simp [utf8Bytes]
  | pair u v rest h ih =>
    obtain ⟨hu, hv⟩ := surrogates_of_points h
    unfold utf8Bytes at ih ⊢
    rw [h, List.cons_append, List.cons_append, points_pair hu hv]
    simp only [List.map_cons, List.sum_cons]
    omega
  | single u rest h ih =>
    unfold utf8Bytes at ih ⊢
    rw [h]
    rcases points_cons u (rest ++ t) with ⟨v, rest', hs, hu, hv, happend⟩ | happend
    · rw [List.cons_append, happend]
      cases rest with
      | nil =>
        have hone := pointBytes_single u
        have hpair : pointBytes [u, v] = 4 := rfl
        simp only [points_nil, List.map_cons, List.map_nil, List.sum_cons, List.sum_nil, hpair]
        omega
      | cons w rest =>
        simp only [List.cons_append, List.cons.injEq] at hs
        obtain ⟨rfl, rfl⟩ := hs
        simp [points_pair hu hv] at h
    · rw [List.cons_append, happend]
      simp only [List.map_cons, List.sum_cons]
      omega

def Paired (s : JsString) : Prop := ∀ p ∈ points s, ∀ u, p = [u] → isHigh u = false ∧ isLow u = false

theorem points_append {s : JsString} (h : Paired s) (t : JsString) :
    points (s ++ t) = points s ++ points t := by
  induction s using points_induction with
  | nil => rfl
  | pair u v rest hp ih =>
    obtain ⟨hu, hv⟩ := surrogates_of_points hp
    unfold Paired at h ih
    rw [hp, List.forall_mem_cons] at h
    rw [List.cons_append, List.cons_append, points_pair hu hv, hp, ih h.2, List.cons_append]
  | single u rest hp ih =>
    unfold Paired at h ih
    rw [hp, List.forall_mem_cons] at h
    have happend : points (u :: rest ++ t) = [u] :: points (rest ++ t) := by
      rcases points_cons u (rest ++ t) with ⟨v, rest', -, hu, -⟩ | hno
      · rw [(h.1 u rfl).1] at hu
        cases hu
      · exact hno
    rw [happend, hp, ih h.2, List.cons_append]

/-- Two strings are cut apart where they meet, unless a surrogate pair stands across the seam. -/
theorem points_append_of_seam {s t : JsString}
    (h : (∀ u ∈ s.getLast?, isHigh u = false) ∨ ∀ v ∈ t.head?, isLow v = false) :
    points (s ++ t) = points s ++ points t := by
  induction s using points_induction with
  | nil => rfl
  | pair u v rest hp ih =>
    obtain ⟨hu, hv⟩ := surrogates_of_points hp
    have hrest := ih (h.imp_left fun hlast w hw =>
      hlast w (List.mem_getLast?_cons (List.mem_getLast?_cons hw)))
    rw [List.cons_append, List.cons_append, points_pair hu hv, hp, hrest, List.cons_append]
  | single u rest hp ih =>
    have hrest := ih (h.imp_left fun hlast w hw => hlast w (List.mem_getLast?_cons hw))
    rcases points_cons u (rest ++ t) with ⟨v, rest', hs, hu, hv, -⟩ | happend
    · cases rest with
      | nil =>
        rw [List.nil_append] at hs
        subst hs
        rcases h with h | h
        · exact absurd (h u rfl) (by simp [hu])
        · exact absurd (h v rfl) (by simp [hv])
      | cons w rest =>
        simp only [List.cons_append, List.cons.injEq] at hs
        obtain ⟨rfl, rfl⟩ := hs
        simp [points_pair hu hv] at hp
    · rw [List.cons_append, happend, hp, hrest, List.cons_append]

theorem Paired.append {s t : JsString} (hs : Paired s) (ht : Paired t) : Paired (s ++ t) := by
  unfold Paired
  rw [points_append hs, List.forall_mem_append]
  exact ⟨hs, ht⟩

theorem utf8Bytes_append {s : JsString} (h : Paired s) (t : JsString) :
    utf8Bytes (s ++ t) = utf8Bytes s + utf8Bytes t := by
  unfold utf8Bytes
  rw [points_append h, List.map_append, List.sum_append]

theorem paired_of_units {s : JsString} (h : ∀ u ∈ s, isHigh u = false ∧ isLow u = false) :
    Paired s ∧ points s = s.map fun u => [u] := by
  induction s with
  | nil => exact ⟨by simp [Paired], rfl⟩
  | cons u s ih =>
    rw [List.forall_mem_cons] at h
    obtain ⟨hs, hp⟩ := ih h.2
    have hcons : points (u :: s) = [u] :: points s := by
      rcases points_cons u s with ⟨v, rest', -, hu, -⟩ | hno
      · rw [h.1.1] at hu
        cases hu
      · exact hno
    refine ⟨?_, by rw [hcons, hp]; rfl⟩
    unfold Paired
    rw [hcons, List.forall_mem_cons]
    refine ⟨?_, hs⟩
    rintro w hw
    cases hw
    exact h.1

theorem ascii_no_surrogate {u : CodeUnit} (h : u < 0x80) : isHigh u = false ∧ isLow u = false := by
  have h1 : (0xD800 : CodeUnit).toNat = 0xD800 := rfl
  have h2 : (0xDC00 : CodeUnit).toNat = 0xDC00 := rfl
  have h3 : (0x80 : CodeUnit).toNat = 0x80 := rfl
  rw [UInt16.lt_iff_toNat_lt] at h
  simp only [isHigh, isLow, Bool.and_eq_false_iff, decide_eq_false_iff_not, UInt16.le_iff_toNat_le]
  omega

theorem utf8Bytes_of_ascii {s : JsString} (h : ∀ u ∈ s, u < 0x80) :
    Paired s ∧ utf8Bytes s = s.length := by
  obtain ⟨hpaired, hpoints⟩ := paired_of_units fun u hu => ascii_no_surrogate (h u hu)
  refine ⟨hpaired, ?_⟩
  rw [utf8Bytes, hpoints]
  clear hpaired hpoints
  induction s with
  | nil => rfl
  | cons u s ih =>
    rw [List.forall_mem_cons] at h
    have hone : pointBytes [u] = 1 := by simp [pointBytes, h.1]
    simp only [List.map_cons, List.sum_cons, List.length_cons, hone, ih h.2]
    omega

/-! ## JSON text -/

def ascii (s : String) : JsString := s.toList.map fun c => c.toNat.toUInt16

def hexDigit (n : Nat) : CodeUnit := if n < 10 then (0x30 + n).toUInt16 else (0x57 + n).toUInt16

def hexEscape (u : CodeUnit) : JsString :=
  ascii "\\u" ++ [hexDigit (u.toNat / 4096), hexDigit (u.toNat / 256 % 16),
    hexDigit (u.toNat / 16 % 16), hexDigit (u.toNat % 16)]

def jsonEscape : JsString → JsString
  | [u] =>
    if u = 0x22 then ascii "\\\""
    else if u = 0x5C then ascii "\\\\"
    else if u = 0x08 then ascii "\\b"
    else if u = 0x09 then ascii "\\t"
    else if u = 0x0A then ascii "\\n"
    else if u = 0x0C then ascii "\\f"
    else if u = 0x0D then ascii "\\r"
    else if u < 0x20 || isHigh u || isLow u then hexEscape u
    else [u]
  | p => p

def jsonString (s : JsString) : JsString :=
  ascii "\"" ++ ((points s).map jsonEscape).flatten ++ ascii "\""

def jsonNat (n : Nat) : JsString := ascii (toString n)

end Lib
end PiCloud
