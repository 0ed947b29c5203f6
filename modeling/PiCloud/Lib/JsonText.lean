import PiCloud.Lib.Utf16

/-!
# Lib.JsonText

`JSON.stringify` and `JSON.parse`.

* `literal`: reads the text of a string. `literal_jsonString`: it reads back what `jsonString`
  wrote of any string, unpaired surrogates included.
* `jsonString` writes printable text in which surrogates are paired, of at most six bytes a unit.
* `JsonText V`: the two functions on the values of a program, with what the language promises.
-/

namespace PiCloud
namespace Lib

/-! ## String literals -/

def hexValue (u : CodeUnit) : Option Nat :=
  if 0x30 ≤ u ∧ u ≤ 0x39 then some (u.toNat - 0x30)
  else if 0x61 ≤ u ∧ u ≤ 0x66 then some (u.toNat - 0x57)
  else if 0x41 ≤ u ∧ u ≤ 0x46 then some (u.toNat - 0x37)
  else none

def hexUnit (a b c d : CodeUnit) : Option CodeUnit := do
  let a ← hexValue a
  let b ← hexValue b
  let c ← hexValue c
  let d ← hexValue d
  return (a * 4096 + b * 256 + c * 16 + d).toUInt16

/-- The unit that a character stands for after a backslash. -/
def simpleEscape (u : CodeUnit) : Option CodeUnit :=
  if u = 0x22 ∨ u = 0x5C ∨ u = 0x2F then some u
  else if u = 0x62 then some 0x08
  else if u = 0x66 then some 0x0C
  else if u = 0x6E then some 0x0A
  else if u = 0x72 then some 0x0D
  else if u = 0x74 then some 0x09
  else none

/-- What stands after the opening quote, up to a closing quote that ends the text. -/
def literalRest : JsString → Option JsString
  | [] => none
  | [u] => if u = 0x22 then some [] else none
  | u :: v :: rest =>
    if u = 0x22 then none
    else if u = 0x5C then
      if v = 0x75 then
        match rest with
        | a :: b :: c :: d :: rest => do return (← hexUnit a b c d) :: (← literalRest rest)
        | _ => none
      else do return (← simpleEscape v) :: (← literalRest rest)
    else if u < 0x20 then none
    else do return u :: (← literalRest (v :: rest))

def literal : JsString → Option JsString
  | u :: rest => if u = 0x22 then literalRest rest else none
  | [] => none

theorem hexValue_hexDigit : ∀ n < 16, hexValue (hexDigit n) = some n := by
  decide

theorem hexUnit_hexEscape (u : CodeUnit) :
    hexUnit (hexDigit (u.toNat / 4096)) (hexDigit (u.toNat / 256 % 16))
      (hexDigit (u.toNat / 16 % 16)) (hexDigit (u.toNat % 16)) = some u := by
  have hlt := u.toNat_lt
  have hsum : u.toNat / 4096 * 4096 + u.toNat / 256 % 16 * 256 + u.toNat / 16 % 16 * 16 +
      u.toNat % 16 = u.toNat := by omega
  unfold hexUnit
  rw [hexValue_hexDigit _ (by omega), hexValue_hexDigit _ (by omega),
    hexValue_hexDigit _ (by omega), hexValue_hexDigit _ (by omega)]
  simp only [Option.bind_eq_bind, Option.bind_some, hsum]
  simp

theorem literalRest_plain {u : CodeUnit} (hquote : u ≠ 0x22) (hslash : u ≠ 0x5C) (hu : ¬u < 0x20)
    (v : CodeUnit) (t : JsString) :
    literalRest (u :: v :: t) = (literalRest (v :: t)).map (u :: ·) := by
  conv => lhs; unfold literalRest
  rw [if_neg hquote, if_neg hslash, if_neg hu]
  cases literalRest (v :: t) <;> rfl

theorem literalRest_escape {v w : CodeUnit} (hv : v ≠ 0x75) (h : simpleEscape v = some w)
    (t : JsString) : literalRest (0x5C :: v :: t) = (literalRest t).map (w :: ·) := by
  conv => lhs; unfold literalRest
  rw [if_neg (by decide), if_pos rfl, if_neg hv, h]
  cases literalRest t <;> rfl

theorem literalRest_hex (u : CodeUnit) (t : JsString) :
    literalRest (hexEscape u ++ t) = (literalRest t).map (u :: ·) := by
  have hcons : hexEscape u ++ t = 0x5C :: 0x75 :: hexDigit (u.toNat / 4096) ::
      hexDigit (u.toNat / 256 % 16) :: hexDigit (u.toNat / 16 % 16) :: hexDigit (u.toNat % 16) :: t :=
    rfl
  rw [hcons]
  conv => lhs; unfold literalRest
  rw [if_neg (by decide), if_pos rfl, if_pos rfl]
  simp only [hexUnit_hexEscape]
  cases literalRest t <;> rfl

theorem literalRest_unit (u v : CodeUnit) (t : JsString) :
    literalRest (jsonEscape [u] ++ v :: t) = (literalRest (v :: t)).map (u :: ·) := by
  simp only [jsonEscape]
  by_cases h1 : u = 0x22
  · subst h1
    exact literalRest_escape (by decide) (by decide) _
  by_cases h2 : u = 0x5C
  · subst h2
    exact literalRest_escape (by decide) (by decide) _
  by_cases h3 : u = 0x08
  · subst h3
    exact literalRest_escape (by decide) (by decide) _
  by_cases h4 : u = 0x09
  · subst h4
    exact literalRest_escape (by decide) (by decide) _
  by_cases h5 : u = 0x0A
  · subst h5
    exact literalRest_escape (by decide) (by decide) _
  by_cases h6 : u = 0x0C
  · subst h6
    exact literalRest_escape (by decide) (by decide) _
  by_cases h7 : u = 0x0D
  · subst h7
    exact literalRest_escape (by decide) (by decide) _
  rw [if_neg h1, if_neg h2, if_neg h3, if_neg h4, if_neg h5, if_neg h6, if_neg h7]
  split
  · exact literalRest_hex u _
  · rename_i hplain
    simp only [Bool.or_eq_true, decide_eq_true_eq, not_or] at hplain
    exact literalRest_plain h1 h2 hplain.1.1 v t

theorem surrogate_plain {u : CodeUnit} (h : isHigh u = true ∨ isLow u = true) :
    u ≠ 0x22 ∧ u ≠ 0x5C ∧ 0x20 ≤ u := by
  simp only [isHigh, isLow, Bool.and_eq_true, decide_eq_true_eq, UInt16.le_iff_toNat_le] at h
  have h1 : (0xD800 : CodeUnit).toNat = 0xD800 := rfl
  have h2 : (0xDC00 : CodeUnit).toNat = 0xDC00 := rfl
  have h3 : (0x20 : CodeUnit).toNat = 0x20 := rfl
  refine ⟨?_, ?_, ?_⟩
  · rintro rfl
    have h4 : (0x22 : CodeUnit).toNat = 0x22 := rfl
    omega
  · rintro rfl
    have h4 : (0x5C : CodeUnit).toNat = 0x5C := rfl
    omega
  · rw [UInt16.le_iff_toNat_le]
    omega

theorem literalRest_escapes (s : JsString) (v : CodeUnit) (t : JsString) :
    literalRest (((points s).map jsonEscape).flatten ++ v :: t) =
      (literalRest (v :: t)).map (s ++ ·) := by
  induction s using points_induction with
  | nil => simp
  | pair u w rest h ih =>
    obtain ⟨hu, hw⟩ := surrogates_of_points h
    obtain ⟨hu1, hu2, hu3⟩ := surrogate_plain (.inl hu)
    obtain ⟨hw1, hw2, hw3⟩ := surrogate_plain (.inr hw)
    obtain ⟨x, t', htail⟩ : ∃ x t', ((points rest).map jsonEscape).flatten ++ v :: t = x :: t' := by
      cases ((points rest).map jsonEscape).flatten <;> simp
    rw [h, List.map_cons, List.flatten_cons, List.append_assoc, htail]
    rw [htail] at ih
    show literalRest (u :: w :: x :: t') = _
    rw [literalRest_plain hu1 hu2 (UInt16.not_lt.mpr hu3),
      literalRest_plain hw1 hw2 (UInt16.not_lt.mpr hw3), ih]
    cases literalRest (v :: t) <;> rfl
  | single u rest h ih =>
    obtain ⟨x, t', htail⟩ : ∃ x t', ((points rest).map jsonEscape).flatten ++ v :: t = x :: t' := by
      cases ((points rest).map jsonEscape).flatten <;> simp
    rw [h, List.map_cons, List.flatten_cons, List.append_assoc, htail, literalRest_unit]
    rw [htail] at ih
    rw [ih]
    cases literalRest (v :: t) <;> rfl

theorem literal_jsonString (s : JsString) : literal (jsonString s) = some s := by
  have hquote : jsonString s = 0x22 :: (((points s).map jsonEscape).flatten ++ [0x22]) := rfl
  rw [hquote, literal, if_pos rfl, literalRest_escapes]
  simp [literalRest]

/-! ## What a literal is made of -/

def Printable (s : JsString) : Prop := ∀ u ∈ s, 0x20 ≤ u

theorem Printable.append {s t : JsString} (hs : Printable s) (ht : Printable t) :
    Printable (s ++ t) := List.forall_mem_append.mpr ⟨hs, ht⟩

theorem hexDigit_ascii : ∀ n < 16, 0x20 ≤ hexDigit n ∧ hexDigit n < 0x80 := by
  decide

theorem hexEscape_ascii (u : CodeUnit) : ∀ v ∈ hexEscape u, 0x20 ≤ v ∧ v < 0x80 := by
  have hlt := u.toNat_lt
  have hcons : hexEscape u = [0x5C, 0x75, hexDigit (u.toNat / 4096), hexDigit (u.toNat / 256 % 16),
    hexDigit (u.toNat / 16 % 16), hexDigit (u.toNat % 16)] := rfl
  simp only [hcons, List.forall_mem_cons, List.not_mem_nil, false_implies, implies_true, and_true]
  exact ⟨by decide, by decide, hexDigit_ascii _ (by omega), hexDigit_ascii _ (by omega),
    hexDigit_ascii _ (by omega), hexDigit_ascii _ (by omega)⟩

theorem jsonEscape_unit (u : CodeUnit) : Printable (jsonEscape [u]) ∧ Paired (jsonEscape [u]) ∧
    utf8Bytes (jsonEscape [u]) ≤ 6 := by
  have hascii : ∀ {s : JsString}, (∀ v ∈ s, 0x20 ≤ v ∧ v < 0x80) → s.length ≤ 6 →
      Printable s ∧ Paired s ∧ utf8Bytes s ≤ 6 := by
    intro s h hlen
    obtain ⟨hpaired, hbytes⟩ := utf8Bytes_of_ascii fun v hv => (h v hv).2
    exact ⟨fun v hv => (h v hv).1, hpaired, by omega⟩
  simp only [jsonEscape]
  by_cases h1 : u = 0x22
  · rw [if_pos h1]
    exact hascii (by decide) (by decide)
  by_cases h2 : u = 0x5C
  · rw [if_neg h1, if_pos h2]
    exact hascii (by decide) (by decide)
  by_cases h3 : u = 0x08
  · rw [if_neg h1, if_neg h2, if_pos h3]
    exact hascii (by decide) (by decide)
  by_cases h4 : u = 0x09
  · rw [if_neg h1, if_neg h2, if_neg h3, if_pos h4]
    exact hascii (by decide) (by decide)
  by_cases h5 : u = 0x0A
  · rw [if_neg h1, if_neg h2, if_neg h3, if_neg h4, if_pos h5]
    exact hascii (by decide) (by decide)
  by_cases h6 : u = 0x0C
  · rw [if_neg h1, if_neg h2, if_neg h3, if_neg h4, if_neg h5, if_pos h6]
    exact hascii (by decide) (by decide)
  by_cases h7 : u = 0x0D
  · rw [if_neg h1, if_neg h2, if_neg h3, if_neg h4, if_neg h5, if_neg h6, if_pos h7]
    exact hascii (by decide) (by decide)
  rw [if_neg h1, if_neg h2, if_neg h3, if_neg h4, if_neg h5, if_neg h6, if_neg h7]
  split
  · exact hascii (hexEscape_ascii u) (by simp [hexEscape, ascii])
  · rename_i hplain
    simp only [Bool.or_eq_true, decide_eq_true_eq, not_or, Bool.not_eq_true] at hplain
    obtain ⟨⟨hctrl, hhigh⟩, hlow⟩ := hplain
    obtain ⟨hpaired, hpoints⟩ := paired_of_units (s := [u]) (by simpa using ⟨hhigh, hlow⟩)
    refine ⟨by simpa [Printable] using UInt16.not_lt.mp hctrl, hpaired, ?_⟩
    have hone := pointBytes_single u
    simp only [utf8Bytes, hpoints, List.map_cons, List.map_nil, List.sum_cons, List.sum_nil]
    omega

theorem jsonEscape_pair {u v : CodeUnit} (hu : isHigh u = true) (hv : isLow v = true) :
    Printable (jsonEscape [u, v]) ∧ Paired (jsonEscape [u, v]) ∧
      utf8Bytes (jsonEscape [u, v]) ≤ 6 := by
  have hpoints : points [u, v] = [[u, v]] := by simp [points, hu, hv]
  simp only [jsonEscape]
  refine ⟨?_, ?_, ?_⟩
  · simpa [Printable] using ⟨(surrogate_plain (.inl hu)).2.2, (surrogate_plain (.inr hv)).2.2⟩
  · simp [Paired, hpoints]
  · simp [utf8Bytes, hpoints, pointBytes]

theorem escapes_spec (s : JsString) :
    Printable ((points s).map jsonEscape).flatten ∧ Paired ((points s).map jsonEscape).flatten ∧
      utf8Bytes ((points s).map jsonEscape).flatten ≤ 6 * s.length := by
  induction s using points_induction with
  | nil => simp [Printable, Paired, utf8Bytes]
  | pair u v rest h ih =>
    obtain ⟨hu, hv⟩ := surrogates_of_points h
    obtain ⟨h1, h2, h3⟩ := jsonEscape_pair hu hv
    rw [h, List.map_cons, List.flatten_cons]
    refine ⟨h1.append ih.1, h2.append ih.2.1, ?_⟩
    rw [utf8Bytes_append h2]
    simp only [List.length_cons]
    omega
  | single u rest h ih =>
    obtain ⟨h1, h2, h3⟩ := jsonEscape_unit u
    rw [h, List.map_cons, List.flatten_cons]
    refine ⟨h1.append ih.1, h2.append ih.2.1, ?_⟩
    rw [utf8Bytes_append h2]
    simp only [List.length_cons]
    omega

theorem jsonString_spec (s : JsString) : Printable (jsonString s) ∧ Paired (jsonString s) ∧
    utf8Bytes (jsonString s) ≤ 6 * s.length + 2 := by
  obtain ⟨h1, h2, h3⟩ := escapes_spec s
  have q1 : Printable (ascii "\"") := by
    unfold Printable
    decide
  obtain ⟨q2, q3⟩ := utf8Bytes_of_ascii (s := ascii "\"") (by decide)
  unfold jsonString
  refine ⟨(q1.append h1).append q1, (q2.append h2).append q2, ?_⟩
  rw [utf8Bytes_append (q2.append h2), utf8Bytes_append q2, q3]
  have hlen : (ascii "\"").length = 1 := rfl
  omega

/-! ## The values of a program -/

/-- `JSON.stringify` and `JSON.parse` for the values `V` that have a JSON text. `text` is a string
as a value and `asText` tells these; `kind` reads `value.kind`, where it is a string. -/
structure JsonText (V : Type) where
  stringify : V → JsString
  parse : JsString → Option V
  text : JsString → V
  asText : V → Option JsString
  kind : V → Option JsString
  parse_stringify : ∀ v, parse (stringify v) = some v
  stringify_text : ∀ s, stringify (text s) = jsonString s
  asText_text : ∀ s, asText (text s) = some s
  /-- `JSON.parse('{"kind":"…"}').kind` -/
  parse_kind : ∀ name ∈ ["snapshot", "event"],
    (parse (ascii ("\x7b\"kind\":\"" ++ name ++ "\"\x7d"))).map kind = some (some (ascii name))
  /-- Without indentation a text has no line break, and control characters are escaped. -/
  printable : ∀ v, Printable (stringify v)
  /-- Unpaired surrogates are escaped. -/
  paired : ∀ v, Paired (stringify v)

/-! ## Strings and headers -/

inductive TextValue where
  | text (s : JsString)
  | header (kind : JsString)
deriving DecidableEq

namespace TextValue

def openHeader : JsString := ascii "\x7b\"kind\":"

def stringify : TextValue → JsString
  | .text s => jsonString s
  | .header kind => openHeader ++ (jsonString kind ++ ascii "\x7d")

def parse (s : JsString) : Option TextValue :=
  if s.head? = some 0x22 then (literal s).map .text
  else if openHeader.isPrefixOf s ∧ s.getLast? = some 0x7D then
    (literal (s.drop openHeader.length).dropLast).map .header
  else none

def kind : TextValue → Option JsString
  | .text _ => none
  | .header kind => some kind

def asText : TextValue → Option JsString
  | .text s => some s
  | .header _ => none

theorem parse_stringify (v : TextValue) : parse (stringify v) = some v := by
  cases v with
  | text s =>
    have hhead : (jsonString s).head? = some 0x22 := rfl
    rw [parse, stringify, if_pos hhead, literal_jsonString]
    rfl
  | header kind =>
    have hhead : (openHeader ++ (jsonString kind ++ ascii "\x7d")).head? ≠ some 0x22 := by
      intro h
      cases h
    have hinit : openHeader.isPrefixOf (openHeader ++ (jsonString kind ++ ascii "\x7d")) = true :=
      List.isPrefixOf_iff_prefix.mpr (List.prefix_append _ _)
    have hlast : (openHeader ++ (jsonString kind ++ ascii "\x7d")).getLast? = some 0x7D := by
      rw [← List.append_assoc]
      exact List.getLast?_concat
    have hdrop : (jsonString kind ++ ascii "\x7d").dropLast = jsonString kind :=
      List.dropLast_concat
    rw [parse, stringify, if_neg hhead, if_pos ⟨hinit, hlast⟩, List.drop_left, hdrop,
      literal_jsonString]
    rfl

theorem stringify_spec (v : TextValue) : Printable (stringify v) ∧ Paired (stringify v) := by
  cases v with
  | text s =>
    obtain ⟨h1, h2, -⟩ := jsonString_spec s
    exact ⟨h1, h2⟩
  | header kind =>
    obtain ⟨h1, h2, -⟩ := jsonString_spec kind
    obtain ⟨q1, -⟩ := utf8Bytes_of_ascii (s := openHeader) (by decide)
    obtain ⟨q2, -⟩ := utf8Bytes_of_ascii (s := ascii "\x7d") (by decide)
    refine ⟨Printable.append ?_ (h1.append ?_), q1.append (h2.append q2)⟩
    · unfold Printable
      decide
    · unfold Printable
      decide

end TextValue

/-- Strings, and objects with one field `kind`. -/
def textJson : JsonText TextValue where
  stringify := TextValue.stringify
  parse := TextValue.parse
  text := .text
  asText := TextValue.asText
  kind := TextValue.kind
  parse_stringify := TextValue.parse_stringify
  stringify_text _ := rfl
  asText_text _ := rfl
  parse_kind := by decide +kernel
  printable v := (TextValue.stringify_spec v).1
  paired v := (TextValue.stringify_spec v).2

end Lib
end PiCloud
