import Mathlib.Data.List.TakeWhile
import PiCloud.Lib.InsertionMap
import PiCloud.Lib.JsonText
import PiCloud.Lib.JsonWalk

/-!
# Lib.JsonSyntax

The text of a JSON value, written and read.

* `NumberText`: how numbers are written and read, which rests on floating point.
* `stringify`: the text of a value, without indentation.
* `parse`: reads a text; of a name that stands twice in an object the last value stands.
* `parse_stringify`: a value of safe integers and distinct names comes back from its text.
-/

namespace PiCloud
namespace Lib

/-! ## Numbers -/

def isNumberUnit (u : CodeUnit) : Bool :=
  (0x30 ≤ u && u ≤ 0x39) || u = 0x2B || u = 0x2D || u = 0x2E || u = 0x45 || u = 0x65

/-- A number as text and a text as a number, on the integers that are held exactly. -/
structure NumberText where
  safe : Nat
  write : Rat → JsString
  read : JsString → Option Rat
  write_nat : ∀ n ≤ safe, write (n : Nat) = jsonNat n
  read_nat : ∀ n ≤ safe, read (jsonNat n) = some ((n : Nat) : Rat)

theorem jsonNat_units {n : Nat} {u : CodeUnit} (hu : u ∈ jsonNat n) : 0x30 ≤ u ∧ u ≤ 0x39 := by
  unfold jsonNat ascii at hu
  obtain ⟨c, hc, rfl⟩ := List.mem_map.mp hu
  have hrepr : (toString n).toList = Nat.toDigits 10 n := by
    rw [Nat.toString_eq_ofList_toDigits, String.toList_ofList]
  rw [hrepr] at hc
  have hdigit := Nat.isDigit_of_mem_toDigits (by decide) (by decide) hc
  simp only [Char.isDigit, Bool.and_eq_true, decide_eq_true_eq, UInt32.le_iff_toNat_le] at hdigit
  obtain ⟨hlow, hhigh⟩ := hdigit
  have h30 : '0'.val.toNat = 48 := rfl
  have h39 : '9'.val.toNat = 57 := rfl
  have hval : c.toNat = c.val.toNat := rfl
  rw [UInt16.le_iff_toNat_le, UInt16.le_iff_toNat_le]
  have hunit : c.toNat.toUInt16.toNat = c.toNat := by
    simp only [Nat.toUInt16_eq, UInt16.toNat_ofNat']
    omega
  have h30' : (0x30 : CodeUnit).toNat = 48 := rfl
  have h39' : (0x39 : CodeUnit).toNat = 57 := rfl
  omega

theorem jsonNat_ne_nil (n : Nat) : jsonNat n ≠ [] := by
  unfold jsonNat ascii
  rw [ne_eq, List.map_eq_nil_iff, Nat.toString_eq_ofList_toDigits, String.toList_ofList]
  exact Nat.toDigits_ne_nil

/-! ## Writing -/

section
variable (number : NumberText)

mutual

def stringify : Json → JsString
  | .null => ascii "null"
  | .bool b => if b then ascii "true" else ascii "false"
  | .num q => number.write q
  | .str s => jsonString s
  | .arr items => 0x5B :: stringifyItems items
  | .obj m => 0x7B :: stringifyMembers m

/-- The items of an array, and its closing bracket. -/
def stringifyItems : List Json → JsString
  | [] => [0x5D]
  | [v] => stringify v ++ [0x5D]
  | v :: w :: vs => stringify v ++ 0x2C :: stringifyItems (w :: vs)

/-- The members of an object, and its closing brace. -/
def stringifyMembers : List (JsString × Json) → JsString
  | [] => [0x7D]
  | [(k, v)] => jsonString k ++ 0x3A :: stringify v ++ [0x7D]
  | (k, v) :: p :: m => jsonString k ++ 0x3A :: stringify v ++ 0x2C :: stringifyMembers (p :: m)

end

end

/-! ## Reading -/

def isBlank (u : CodeUnit) : Bool := u = 0x20 || u = 0x09 || u = 0x0A || u = 0x0D

def skip (s : JsString) : JsString := s.dropWhile isBlank

/-- What stands after an opening quote, cut behind the closing quote. -/
def closing : JsString → Option (JsString × JsString)
  | [] => none
  | [u] => if u = 0x22 then some ([u], []) else none
  | u :: v :: s =>
    if u = 0x22 then some ([u], v :: s)
    else if u = 0x5C then (closing s).map fun p => (u :: v :: p.1, p.2)
    else (closing (v :: s)).map fun p => (u :: p.1, p.2)

def readString (s : JsString) : Option (JsString × JsString) := do
  let (text, rest) ← closing s
  return (← literalRest text, rest)

section
variable (number : NumberText)

def readScalar (s : JsString) : Option (Json × JsString) :=
  if (ascii "true").isPrefixOf s then some (.bool true, s.drop 4)
  else if (ascii "false").isPrefixOf s then some (.bool false, s.drop 5)
  else if (ascii "null").isPrefixOf s then some (.null, s.drop 4)
  else (number.read (s.takeWhile isNumberUnit)).map fun q => (.num q, s.dropWhile isNumberUnit)

mutual

def readValue : Nat → JsString → Option (Json × JsString)
  | 0, _ => none
  | n + 1, s =>
    match skip s with
    | [] => none
    | u :: rest =>
      if u = 0x22 then (readString rest).map fun p => (.str p.1, p.2)
      else if u = 0x5B then
        if (skip rest).head? = some 0x5D then some (.arr [], (skip rest).tail)
        else (readItems n rest).map fun p => (.arr p.1, p.2)
      else if u = 0x7B then
        if (skip rest).head? = some 0x7D then some (.obj [], (skip rest).tail)
        else (readMembers n rest).map fun p => (.obj (InsertionMap.ofList p.1).entries, p.2)
      else readScalar number (u :: rest)

def readItems : Nat → JsString → Option (List Json × JsString)
  | 0, _ => none
  | n + 1, s => do
    let (v, rest) ← readValue n s
    match skip rest with
    | [] => none
    | u :: rest =>
      if u = 0x2C then (readItems n rest).map fun p => (v :: p.1, p.2)
      else if u = 0x5D then some ([v], rest)
      else none

def readMembers : Nat → JsString → Option (List (JsString × Json) × JsString)
  | 0, _ => none
  | n + 1, s =>
    match skip s with
    | [] => none
    | u :: rest =>
      if u = 0x22 then do
        let (k, rest) ← readString rest
        match skip rest with
        | [] => none
        | u :: rest =>
          if u = 0x3A then do
            let (v, rest) ← readValue n rest
            match skip rest with
            | [] => none
            | u :: rest =>
              if u = 0x2C then (readMembers n rest).map fun p => ((k, v) :: p.1, p.2)
              else if u = 0x7D then some ([(k, v)], rest)
              else none
          else none
      else none

end

def parse (s : JsString) : Option Json := do
  let (v, rest) ← readValue number (s.length + 1) s
  if skip rest = [] then some v else none

end

/-! ## Strings -/

def Inert (w : JsString) : Prop :=
  ∀ t, closing (w ++ t) = (closing t).map fun p => (w ++ p.1, p.2)

theorem Inert.append {v w : JsString} (hv : Inert v) (hw : Inert w) : Inert (v ++ w) := by
  intro t
  rw [List.append_assoc, hv, hw, Option.map_map]
  simp only [Function.comp_def, List.append_assoc]

theorem inert_unit {u : CodeUnit} (hquote : u ≠ 0x22) (hslash : u ≠ 0x5C) : Inert [u] := by
  intro t
  cases t with
  | nil => simp [closing, hquote]
  | cons v t =>
    show closing (u :: v :: t) = _
    rw [closing, if_neg hquote, if_neg hslash]
    rfl

theorem inert_escape (v : CodeUnit) : Inert [0x5C, v] := by
  intro t
  show closing (0x5C :: v :: t) = _
  rw [closing, if_neg (by decide), if_pos rfl]
  rfl

theorem inert_hexDigit : ∀ n < 16, hexDigit n ≠ 0x22 ∧ hexDigit n ≠ 0x5C := by
  decide

theorem inert_hexEscape (u : CodeUnit) : Inert (hexEscape u) := by
  have hlt := u.toNat_lt
  have hdigit : ∀ n < 16, Inert [hexDigit n] := fun n hn =>
    inert_unit (inert_hexDigit n hn).1 (inert_hexDigit n hn).2
  have hcons : hexEscape u = [0x5C, 0x75] ++ ([hexDigit (u.toNat / 4096)] ++
      ([hexDigit (u.toNat / 256 % 16)] ++ ([hexDigit (u.toNat / 16 % 16)] ++
        [hexDigit (u.toNat % 16)]))) := rfl
  rw [hcons]
  exact (inert_escape _).append ((hdigit _ (by omega)).append ((hdigit _ (by omega)).append
    ((hdigit _ (by omega)).append (hdigit _ (by omega)))))

theorem inert_jsonEscape (u : CodeUnit) : Inert (jsonEscape [u]) := by
  simp only [jsonEscape]
  by_cases h1 : u = 0x22
  · rw [if_pos h1]
    exact inert_escape _
  by_cases h2 : u = 0x5C
  · rw [if_neg h1, if_pos h2]
    exact inert_escape _
  rw [if_neg h1, if_neg h2]
  repeat' split
  all_goals first | exact inert_escape _ | exact inert_hexEscape u | exact inert_unit h1 h2

theorem inert_escapes (s : JsString) : Inert ((points s).map jsonEscape).flatten := by
  induction s using points_induction with
  | nil =>
    intro t
    cases h : closing t <;> simp [h]
  | pair u v rest h ih =>
    obtain ⟨hu, hv⟩ := surrogates_of_points h
    rw [h, List.map_cons, List.flatten_cons]
    refine Inert.append ?_ ih
    exact (inert_unit (surrogate_plain (.inl hu)).1 (surrogate_plain (.inl hu)).2.1).append
      (inert_unit (surrogate_plain (.inr hv)).1 (surrogate_plain (.inr hv)).2.1)
  | single u rest h ih =>
    rw [h, List.map_cons, List.flatten_cons]
    exact (inert_jsonEscape u).append ih

theorem readString_jsonString (s rest : JsString) :
    ∃ t, jsonString s = 0x22 :: t ∧ readString (t ++ rest) = some (s, rest) := by
  refine ⟨((points s).map jsonEscape).flatten ++ [0x22], rfl, ?_⟩
  have hclosing : closing (0x22 :: rest) = some ([0x22], rest) := by
    cases rest <;> simp [closing]
  have hliteral := literalRest_escapes s 0x22 []
  unfold readString
  rw [List.append_assoc, List.singleton_append, inert_escapes, hclosing]
  simp only [Option.map_some, Option.bind_eq_bind, Option.bind_some]
  rw [hliteral]
  simp [literalRest]

/-! ## Round trip -/

section
variable (number : NumberText)

mutual

/-- The numbers are safe integers, and no name stands twice in an object. -/
def Plain : Json → Prop
  | .num q => ∃ n ≤ number.safe, q = (n : Nat)
  | .arr items => PlainItems items
  | .obj m => (m.map Prod.fst).Nodup ∧ PlainMembers m
  | _ => True

def PlainItems : List Json → Prop
  | [] => True
  | v :: vs => Plain v ∧ PlainItems vs

def PlainMembers : List (JsString × Json) → Prop
  | [] => True
  | (_, v) :: m => Plain v ∧ PlainMembers m

end

end

theorem skip_cons {u : CodeUnit} (h : isBlank u = false) (s : JsString) : skip (u :: s) = u :: s := by
  unfold skip
  rw [List.dropWhile_cons, if_neg (by simp [h])]

def Delimited (rest : JsString) : Prop := ∀ u ∈ rest.head?, isNumberUnit u = false

section
variable {number : NumberText}

theorem readValue_scalar {u : CodeUnit} (hblank : isBlank u = false) (hquote : u ≠ 0x22)
    (hbracket : u ≠ 0x5B) (hbrace : u ≠ 0x7B) (n : Nat) (rest : JsString) :
    readValue number (n + 1) (u :: rest) = readScalar number (u :: rest) := by
  unfold readValue
  rw [skip_cons hblank]
  dsimp only
  rw [if_neg hquote, if_neg hbracket, if_neg hbrace]

theorem readScalar_nat {n : Nat} (hn : n ≤ number.safe) {rest : JsString} (hrest : Delimited rest) :
    readScalar number (jsonNat n ++ rest) = some (.num (n : Nat), rest) := by
  have hunits : ∀ u ∈ jsonNat n, isNumberUnit u = true := by
    intro u hu
    obtain ⟨h1, h2⟩ := jsonNat_units hu
    simp [isNumberUnit, h1, h2]
  have htake : (jsonNat n ++ rest).takeWhile isNumberUnit = jsonNat n := by
    rw [List.takeWhile_append_of_pos hunits]
    cases rest with
    | nil => simp
    | cons u t => simp [hrest u rfl]
  have hdrop : (jsonNat n ++ rest).dropWhile isNumberUnit = rest := by
    rw [List.dropWhile_append_of_pos hunits]
    cases rest with
    | nil => rfl
    | cons u t => simp [hrest u rfl]
  obtain ⟨d, ds, hcons⟩ := List.exists_cons_of_ne_nil (jsonNat_ne_nil n)
  have hd : 0x30 ≤ d ∧ d ≤ 0x39 := jsonNat_units (hcons ▸ List.mem_cons_self)
  have hword : ∀ w : CodeUnit, 0x39 < w → ∀ ws : JsString,
      (w :: ws).isPrefixOf (jsonNat n ++ rest) = false := by
    intro w hw ws
    have hne : w ≠ d := fun h => absurd (UInt16.lt_of_lt_of_le hw (h ▸ hd.2)) (UInt16.lt_irrefl _)
    rw [hcons, List.cons_append, List.isPrefixOf_cons_cons, beq_eq_false_iff_ne.mpr hne, Bool.false_and]
  unfold readScalar
  have htrue : (ascii "true").isPrefixOf (jsonNat n ++ rest) = false := hword 0x74 (by decide) _
  have hfalse : (ascii "false").isPrefixOf (jsonNat n ++ rest) = false := hword 0x66 (by decide) _
  have hnull : (ascii "null").isPrefixOf (jsonNat n ++ rest) = false := hword 0x6E (by decide) _
  rw [htrue, hfalse, hnull, htake, hdrop, number.read_nat n hn]
  rfl

theorem stringify_head {v : Json} (hv : Plain number v) :
    ∃ u t, stringify number v = u :: t ∧ isBlank u = false ∧ u ≠ 0x5D := by
  cases v with
  | null => exact ⟨0x6E, ascii "ull", by rw [stringify]; rfl, by decide, by decide⟩
  | bool b =>
    cases b with
    | true => exact ⟨0x74, ascii "rue", by rw [stringify]; rfl, by decide, by decide⟩
    | false => exact ⟨0x66, ascii "alse", by rw [stringify]; rfl, by decide, by decide⟩
  | num q =>
    obtain ⟨n, hn, rfl⟩ : ∃ n ≤ number.safe, q = (n : Nat) := by rwa [Plain] at hv
    obtain ⟨d, ds, hcons⟩ := List.exists_cons_of_ne_nil (jsonNat_ne_nil n)
    obtain ⟨h1, h2⟩ := jsonNat_units (n := n) (hcons ▸ List.mem_cons_self)
    have hblank : isBlank d = false := by
      have hne : ∀ w : CodeUnit, w < 0x30 → d ≠ w := fun w hw h =>
        absurd (UInt16.lt_of_lt_of_le hw (h ▸ h1)) (UInt16.lt_irrefl _)
      simp [isBlank, hne 0x20 (by decide), hne 0x09 (by decide), hne 0x0A (by decide),
        hne 0x0D (by decide)]
    refine ⟨d, ds, by rw [stringify, number.write_nat n hn, hcons], hblank, ?_⟩
    rintro rfl
    exact absurd h2 (by decide)
  | str s => exact ⟨0x22, _, by rw [stringify]; rfl, by decide, by decide⟩
  | arr items => exact ⟨0x5B, _, by rw [stringify], by decide, by decide⟩
  | obj m => exact ⟨0x7B, _, by rw [stringify], by decide, by decide⟩

theorem readItems_step {n : Nat} {v : Json} {text rest : JsString} {u : CodeUnit}
    (h : readValue number n text = some (v, u :: rest)) (hblank : isBlank u = false) :
    readItems number (n + 1) text =
      if u = 0x2C then (readItems number n rest).map fun p => (v :: p.1, p.2)
      else if u = 0x5D then some ([v], rest)
      else none := by
  rw [readItems, h]
  simp only [Option.bind_eq_bind, Option.bind_some]
  rw [skip_cons hblank]

theorem readMembers_step {n : Nat} {k : JsString} {v : Json} {text rest : JsString} {u : CodeUnit}
    (h : readValue number n text = some (v, u :: rest)) (hblank : isBlank u = false) :
    readMembers number (n + 1) (jsonString k ++ 0x3A :: text) =
      if u = 0x2C then (readMembers number n rest).map fun p => ((k, v) :: p.1, p.2)
      else if u = 0x7D then some ([(k, v)], rest)
      else none := by
  obtain ⟨t, ht, hread⟩ := readString_jsonString k (0x3A :: text)
  rw [ht, List.cons_append]
  conv => lhs; unfold readMembers
  rw [skip_cons (by decide)]
  dsimp only
  rw [if_pos rfl, hread]
  simp only [Option.bind_eq_bind, Option.bind_some]
  rw [skip_cons (by decide)]
  dsimp only
  rw [if_pos rfl, h]
  simp only [Option.bind_some]
  rw [skip_cons hblank]

theorem readValue_items {n : Nat} {items : List Json} {u : CodeUnit} {text rest : JsString}
    (hblank : isBlank u = false) (hu : u ≠ 0x5D)
    (h : readItems number n (u :: text) = some (items, rest)) :
    readValue number (n + 1) (0x5B :: u :: text) = some (.arr items, rest) := by
  unfold readValue
  rw [skip_cons (by decide)]
  dsimp only
  rw [if_neg (by decide), if_pos rfl, skip_cons hblank, if_neg (by simpa using hu), h]
  rfl

theorem readValue_members {n : Nat} {m : List (JsString × Json)} {text rest : JsString}
    (hnames : (m.map Prod.fst).Nodup)
    (h : readMembers number n (0x22 :: text) = some (m, rest)) :
    readValue number (n + 1) (0x7B :: 0x22 :: text) = some (.obj m, rest) := by
  unfold readValue
  rw [skip_cons (by decide)]
  dsimp only
  rw [if_neg (by decide), if_neg (by decide), if_pos rfl, skip_cons (by decide),
    if_neg (by simp), h]
  simp only [Option.map_some, InsertionMap.entries_ofList hnames]

theorem delimited_cons {u : CodeUnit} (h : isNumberUnit u = false) (rest : JsString) :
    Delimited (u :: rest) := by
  rintro w ⟨⟩
  exact h

theorem readValue_stringify : ∀ v, Plain number v → ∀ n rest,
    (stringify number v).length < n → Delimited rest →
      readValue number n (stringify number v ++ rest) = some (v, rest) := by
  refine Json.walk
    (Q := fun items => PlainItems number items → ∀ n rest, items ≠ [] →
      (stringifyItems number items).length < n →
        readItems number n (stringifyItems number items ++ rest) = some (items, rest))
    (R := fun m => PlainMembers number m → ∀ n rest, m ≠ [] →
      (stringifyMembers number m).length < n →
        readMembers number n (stringifyMembers number m ++ rest) = some (m, rest))
    ?null ?bool ?num ?str ?arr ?obj ?none ?item ?empty ?member
  case null =>
    intro _ n rest hn _
    obtain ⟨n, rfl⟩ : ∃ k, n = k + 1 := ⟨n - 1, by omega⟩
    rw [stringify]
    exact (readValue_scalar (by decide) (by decide) (by decide) (by decide) n _).trans rfl
  case bool =>
    intro b _ n rest hn _
    obtain ⟨n, rfl⟩ : ∃ k, n = k + 1 := ⟨n - 1, by omega⟩
    rw [stringify]
    cases b with
    | true => exact (readValue_scalar (by decide) (by decide) (by decide) (by decide) n _).trans rfl
    | false => exact (readValue_scalar (by decide) (by decide) (by decide) (by decide) n _).trans rfl
  case num =>
    intro q hv n rest hn hrest
    obtain ⟨u, t, htext, hblank, -⟩ := stringify_head hv
    obtain ⟨n, rfl⟩ : ∃ k, n = k + 1 := ⟨n - 1, by omega⟩
    obtain ⟨i, hi, rfl⟩ : ∃ n ≤ number.safe, q = (n : Nat) := by rwa [Plain] at hv
    rw [stringify, number.write_nat i hi] at htext ⊢
    have hu : 0x30 ≤ u ∧ u ≤ 0x39 := jsonNat_units (htext ▸ List.mem_cons_self)
    have hne : ∀ w : CodeUnit, w < 0x30 ∨ 0x39 < w → u ≠ w := by
      rintro w (hw | hw) rfl
      · exact absurd (UInt16.lt_of_lt_of_le hw hu.1) (UInt16.lt_irrefl _)
      · exact absurd (UInt16.lt_of_lt_of_le hw hu.2) (UInt16.lt_irrefl _)
    rw [← readScalar_nat hi hrest, htext, List.cons_append]
    exact readValue_scalar hblank (hne _ (by decide)) (hne _ (by decide)) (hne _ (by decide)) n _
  case str =>
    intro s _ n rest hn _
    obtain ⟨n, rfl⟩ : ∃ k, n = k + 1 := ⟨n - 1, by omega⟩
    obtain ⟨t, ht, hread⟩ := readString_jsonString s rest
    rw [stringify, ht, List.cons_append]
    unfold readValue
    rw [skip_cons (by decide)]
    dsimp only
    rw [if_pos rfl, hread]
    rfl
  case arr =>
    intro items ih hv n rest hn _
    rw [Plain] at hv
    obtain ⟨n, rfl⟩ : ∃ k, n = k + 1 := ⟨n - 1, by omega⟩
    rw [stringify] at hn ⊢
    rw [List.length_cons] at hn
    cases items with
    | nil => rfl
    | cons v vs =>
      obtain ⟨u, t, htext, hblank, hu⟩ : ∃ u t, stringifyItems number (v :: vs) = u :: t ∧
          isBlank u = false ∧ u ≠ 0x5D := by
        rw [PlainItems] at hv
        obtain ⟨u, t, htext, h⟩ := stringify_head hv.1
        cases vs with
        | nil => exact ⟨u, _, by rw [stringifyItems, htext]; rfl, h⟩
        | cons w vs => exact ⟨u, _, by rw [stringifyItems, htext]; rfl, h⟩
      have hitems := ih hv n rest (List.cons_ne_nil _ _) (by omega)
      rw [htext] at hitems ⊢
      exact readValue_items hblank hu hitems
  case obj =>
    intro m ih hv n rest hn _
    rw [Plain] at hv
    obtain ⟨n, rfl⟩ : ∃ k, n = k + 1 := ⟨n - 1, by omega⟩
    rw [stringify] at hn ⊢
    rw [List.length_cons] at hn
    cases m with
    | nil => rfl
    | cons p m =>
      obtain ⟨k, v⟩ := p
      obtain ⟨t, htext⟩ : ∃ t, stringifyMembers number ((k, v) :: m) = 0x22 :: t := by
        cases m with
        | nil => exact ⟨_, by rw [stringifyMembers]; rfl⟩
        | cons q m => exact ⟨_, by rw [stringifyMembers]; rfl⟩
      have hmembers := ih hv.2 n rest (List.cons_ne_nil _ _) (by omega)
      rw [htext] at hmembers ⊢
      exact readValue_members hv.1 hmembers
  case none =>
    intro _ n rest hne
    exact absurd rfl hne
  case item =>
    intro v vs ihv ihvs hv n rest _ hn
    rw [PlainItems] at hv
    obtain ⟨n, rfl⟩ : ∃ k, n = k + 1 := ⟨n - 1, by omega⟩
    cases vs with
    | nil =>
      rw [stringifyItems] at hn ⊢
      rw [List.length_append, List.length_singleton] at hn
      rw [List.append_assoc, List.singleton_append,
        readItems_step (ihv hv.1 n (0x5D :: rest) (by omega) (delimited_cons (by decide) _))
          (by decide)]
      rfl
    | cons w vs =>
      rw [stringifyItems] at hn ⊢
      rw [List.length_append, List.length_cons] at hn
      rw [List.append_assoc, List.cons_append,
        readItems_step (ihv hv.1 n (0x2C :: _) (by omega) (delimited_cons (by decide) _))
          (by decide), if_pos rfl, ihvs hv.2 n rest (List.cons_ne_nil _ _) (by omega)]
      rfl
  case empty =>
    intro _ n rest hne
    exact absurd rfl hne
  case member =>
    intro k v m ihv ihm hv n rest _ hn
    rw [PlainMembers] at hv
    obtain ⟨n, rfl⟩ : ∃ k, n = k + 1 := ⟨n - 1, by omega⟩
    cases m with
    | nil =>
      rw [stringifyMembers] at hn ⊢
      simp only [List.length_append, List.length_cons, List.length_nil] at hn
      rw [List.append_assoc, List.append_assoc, List.cons_append, List.singleton_append,
        readMembers_step (ihv hv.1 n (0x7D :: rest) (by omega) (delimited_cons (by decide) _))
          (by decide)]
      rfl
    | cons p m =>
      rw [stringifyMembers] at hn ⊢
      simp only [List.length_append, List.length_cons] at hn
      rw [List.append_assoc, List.cons_append, List.append_assoc, List.cons_append,
        readMembers_step (ihv hv.1 n (0x2C :: _) (by omega) (delimited_cons (by decide) _))
          (by decide), if_pos rfl, ihm hv.2 n rest (List.cons_ne_nil _ _) (by omega)]
      rfl

theorem skip_blank {w : JsString} (hw : ∀ u ∈ w, isBlank u = true) : skip w = [] :=
  List.dropWhile_eq_nil_iff.2 hw

theorem parse_stringify {v : Json} (hv : Plain number v) {w : JsString}
    (hw : ∀ u ∈ w, isBlank u = true) : parse number (stringify number v ++ w) = some v := by
  have hrest : Delimited w := by
    intro u hu
    have hblank := hw u (List.mem_of_mem_head? hu)
    simp only [isBlank, Bool.or_eq_true, decide_eq_true_eq] at hblank
    obtain ((rfl | rfl) | rfl) | rfl := hblank <;> decide
  have hlen : (stringify number v).length < (stringify number v ++ w).length + 1 := by
    rw [List.length_append]
    omega
  unfold parse
  rw [readValue_stringify v hv _ w hlen hrest]
  simp [skip_blank hw]

theorem stringify_paired : ∀ v, Plain number v → Paired (stringify number v) := by
  have hunit : ∀ {u : CodeUnit}, u < 0x80 → ∀ {s : JsString}, Paired s → Paired (u :: s) := by
    intro u hu s hs
    have hone : Paired [u] := (utf8Bytes_of_ascii (s := [u]) (by simpa using hu)).1
    exact hone.append hs
  have hnil : Paired [] := by simp [Paired]
  refine Json.walk
    (Q := fun items => PlainItems number items → Paired (stringifyItems number items))
    (R := fun m => PlainMembers number m → Paired (stringifyMembers number m))
    ?null ?bool ?num ?str ?arr ?obj ?none ?item ?empty ?member
  case null =>
    intro _
    rw [stringify]
    exact (utf8Bytes_of_ascii (by decide)).1
  case bool =>
    intro b _
    rw [stringify]
    cases b with
    | true => exact (utf8Bytes_of_ascii (by decide)).1
    | false => exact (utf8Bytes_of_ascii (by decide)).1
  case num =>
    intro q hv
    obtain ⟨i, hi, rfl⟩ : ∃ n ≤ number.safe, q = (n : Nat) := by rwa [Plain] at hv
    rw [stringify, number.write_nat i hi]
    exact (utf8Bytes_of_ascii fun u hu =>
      UInt16.lt_of_le_of_lt (jsonNat_units hu).2 (by decide)).1
  case str =>
    intro s _
    rw [stringify]
    exact (jsonString_spec s).2.1
  case arr =>
    intro items ih hv
    rw [Plain] at hv
    rw [stringify]
    exact hunit (by decide) (ih hv)
  case obj =>
    intro m ih hv
    rw [Plain] at hv
    rw [stringify]
    exact hunit (by decide) (ih hv.2)
  case none =>
    intro _
    rw [stringifyItems]
    exact hunit (by decide) hnil
  case item =>
    intro v vs ihv ihvs hv
    rw [PlainItems] at hv
    cases vs with
    | nil =>
      rw [stringifyItems]
      exact (ihv hv.1).append (hunit (by decide) hnil)
    | cons w vs =>
      rw [stringifyItems]
      exact (ihv hv.1).append (hunit (by decide) (ihvs hv.2))
  case empty =>
    intro _
    rw [stringifyMembers]
    exact hunit (by decide) hnil
  case member =>
    intro k v m ihv ihm hv
    rw [PlainMembers] at hv
    have hname := (jsonString_spec k).2.1
    cases m with
    | nil =>
      rw [stringifyMembers, List.append_assoc]
      exact hname.append (hunit (by decide) ((ihv hv.1).append (hunit (by decide) hnil)))
    | cons p m =>
      rw [stringifyMembers, List.append_assoc]
      exact hname.append (hunit (by decide) ((ihv hv.1).append (hunit (by decide) (ihm hv.2))))

end

/-! ## Integers in digits -/

def isDecimal (u : CodeUnit) : Bool := 0x30 ≤ u && u ≤ 0x39

def decimalValue (s : JsString) : Nat := s.foldl (fun n u => 10 * n + (u.toNat - 48)) 0

theorem decimalValue_jsonNat (n : Nat) : decimalValue (jsonNat n) = n := by
  have hdigits : ∀ c ∈ Nat.toDigits 10 n, c.toNat.toUInt16.toNat = c.toNat := by
    intro c hc
    have hdigit := Nat.isDigit_of_mem_toDigits (by decide) (by decide) hc
    simp only [Char.isDigit, Bool.and_eq_true, decide_eq_true_eq, UInt32.le_iff_toNat_le] at hdigit
    have h39 : '9'.val.toNat = 57 := rfl
    have hval : c.toNat = c.val.toNat := rfl
    simp only [Nat.toUInt16_eq, UInt16.toNat_ofNat']
    omega
  have hfold : ∀ (l : List Char) (m : Nat), (∀ c ∈ l, c.toNat.toUInt16.toNat = c.toNat) →
      (l.map fun c => c.toNat.toUInt16).foldl (fun n u => 10 * n + (u.toNat - 48)) m =
        Nat.ofDigitChars 10 l m := by
    intro l
    induction l with
    | nil => exact fun _ _ => rfl
    | cons c l ih =>
      intro m h
      rw [List.forall_mem_cons] at h
      rw [List.map_cons, List.foldl_cons, ih _ h.2, h.1]
      rfl
  unfold decimalValue jsonNat ascii
  rw [Nat.toString_eq_ofList_toDigits, String.toList_ofList, hfold _ _ hdigits,
    Nat.ofDigitChars_toDigits (by decide) (by decide)]

/-- Natural numbers in decimal digits, and no others. -/
def decimalText (safe : Nat) : NumberText where
  safe := safe
  write q := jsonNat q.num.toNat
  read s := if s ≠ [] ∧ s.all isDecimal then some ((decimalValue s : Nat) : Rat) else none
  write_nat n _ := by simp
  read_nat n _ := by
    have hall : (jsonNat n).all isDecimal = true := by
      rw [List.all_eq_true]
      intro u hu
      obtain ⟨h1, h2⟩ := jsonNat_units hu
      simp [isDecimal, h1, h2]
    rw [if_pos ⟨jsonNat_ne_nil n, hall⟩, decimalValue_jsonNat]

end Lib
end PiCloud
