import PiCloud.Lib.Utf16

/-!
# Lib.Utf8

Strings as bytes, and back from a stream of bytes.

* `utf8`: the bytes of a string; an unpaired surrogate is written as U+FFFD.
* `Decoder`: the streaming decoder of the encoding standard, one byte at a time.
* `decode_start`: what it makes of the bytes of a string that begins with no byte order mark and
  has no unpaired surrogate, in whatever pieces the bytes come.
-/

namespace PiCloud
namespace Lib

/-! ## Encoding -/

def unitBytes (n : Nat) : List UInt8 :=
  if n < 0x80 then [n.toUInt8]
  else if n < 0x800 then [(0xC0 + n / 64).toUInt8, (0x80 + n % 64).toUInt8]
  else [(0xE0 + n / 4096).toUInt8, (0x80 + n / 64 % 64).toUInt8, (0x80 + n % 64).toUInt8]

def pairPoint (u v : CodeUnit) : Nat := 0x10000 + (u.toNat - 0xD800) * 1024 + (v.toNat - 0xDC00)

def encodePoint : JsString → List UInt8
  | [u] => if isHigh u || isLow u then unitBytes 0xFFFD else unitBytes u.toNat
  | [u, v] =>
    let n := pairPoint u v
    [(0xF0 + n / 262144).toUInt8, (0x80 + n / 4096 % 64).toUInt8, (0x80 + n / 64 % 64).toUInt8,
      (0x80 + n % 64).toUInt8]
  | _ => []

def utf8 (s : JsString) : List UInt8 := (points s).flatMap encodePoint

/-! ## Decoding -/

/-- The value so far, the bytes still owed and the bounds for the next one. A byte order mark that
begins the stream is dropped. -/
structure Decoder where
  point : Nat := 0
  owed : Nat := 0
  lower : Nat := 0x80
  upper : Nat := 0xBF
  begun : Bool := false
deriving DecidableEq

namespace Decoder

def pointUnits (n : Nat) : JsString :=
  if n < 0x10000 then [n.toUInt16]
  else [(0xD800 + (n - 0x10000) / 1024).toUInt16, (0xDC00 + (n - 0x10000) % 1024).toUInt16]

def emit (begun : Bool) (n : Nat) : Decoder × JsString :=
  ({ begun := true }, if !begun && n = 0xFEFF then [] else pointUnits n)

/-- The first byte of a code point. -/
def first (d : Decoder) (b : Nat) : Decoder × JsString :=
  if b < 0x80 then emit d.begun b
  else if 0xC2 ≤ b ∧ b ≤ 0xDF then ({ begun := d.begun, point := b - 0xC0, owed := 1 }, [])
  else if 0xE0 ≤ b ∧ b ≤ 0xEF then
    ({ begun := d.begun, point := b - 0xE0, owed := 2, lower := if b = 0xE0 then 0xA0 else 0x80,
       upper := if b = 0xED then 0x9F else 0xBF }, [])
  else if 0xF0 ≤ b ∧ b ≤ 0xF4 then
    ({ begun := d.begun, point := b - 0xF0, owed := 3, lower := if b = 0xF0 then 0x90 else 0x80,
       upper := if b = 0xF4 then 0x8F else 0xBF }, [])
  else emit d.begun 0xFFFD

def step (d : Decoder) (byte : UInt8) : Decoder × JsString :=
  let b := byte.toNat
  if d.owed = 0 then d.first b
  else if d.lower ≤ b ∧ b ≤ d.upper then
    let n := d.point * 64 + (b - 0x80)
    if d.owed = 1 then emit d.begun n
    else ({ begun := d.begun, point := n, owed := d.owed - 1 }, [])
  else
    -- a byte that does not belong here is read again, as a first one
    let (d, s) := emit d.begun 0xFFFD
    let (d, t) := d.first b
    (d, s ++ t)

def decode (d : Decoder) : List UInt8 → Decoder × JsString
  | [] => (d, [])
  | b :: bytes =>
    let (d, s) := d.step b
    let (d, t) := d.decode bytes
    (d, s ++ t)

theorem decode_append (d : Decoder) (bytes bytes' : List UInt8) :
    d.decode (bytes ++ bytes') =
      (((d.decode bytes).1.decode bytes').1,
        (d.decode bytes).2 ++ ((d.decode bytes).1.decode bytes').2) := by
  induction bytes generalizing d with
  | nil => simp [decode]
  | cons b bytes ih => simp [decode, ih]

end Decoder

/-! ## Round trip -/

def Written (p : JsString) : Prop :=
  (∃ u, p = [u] ∧ isHigh u = false ∧ isLow u = false) ∨
    ∃ u v, p = [u, v] ∧ isHigh u = true ∧ isLow v = true

theorem toNat_toUInt8 {n : Nat} (h : n < 256) : n.toUInt8.toNat = n := by
  simp [Nat.mod_eq_of_lt h]

theorem isHigh_iff (u : CodeUnit) : isHigh u = true ↔ 0xD800 ≤ u.toNat ∧ u.toNat ≤ 0xDBFF := by
  simp [isHigh, UInt16.le_iff_toNat_le]

theorem isLow_iff (u : CodeUnit) : isLow u = true ↔ 0xDC00 ≤ u.toNat ∧ u.toNat ≤ 0xDFFF := by
  simp [isLow, UInt16.le_iff_toNat_le]

namespace Decoder

def Between (d : Decoder) : Prop := d.owed = 0

theorem step_first {d : Decoder} (hd : d.Between) {n : Nat} (hn : n < 256) :
    d.step n.toUInt8 = d.first n := by
  rw [Between] at hd
  rw [step, if_pos hd, toNat_toUInt8 hn]

theorem step_last {d : Decoder} (hd : d.owed = 1) {n : Nat} (hn : n < 256) (hl : d.lower ≤ n)
    (hu : n ≤ d.upper) : d.step n.toUInt8 = emit d.begun (d.point * 64 + (n - 0x80)) := by
  rw [step, if_neg (by omega), toNat_toUInt8 hn, if_pos ⟨hl, hu⟩, if_pos hd]

theorem step_more {d : Decoder} (hd : 1 < d.owed) {n : Nat} (hn : n < 256) (hl : d.lower ≤ n)
    (hu : n ≤ d.upper) : d.step n.toUInt8 =
      ({ begun := d.begun, point := d.point * 64 + (n - 0x80), owed := d.owed - 1 }, []) := by
  rw [step, if_neg (by omega), toNat_toUInt8 hn, if_pos ⟨hl, hu⟩, if_neg (by omega)]

theorem emit_eq {d : Decoder} {n : Nat} {s : JsString} (hs : pointUnits n = s)
    (hbom : d.begun = true ∨ s ≠ [0xFEFF]) : emit d.begun n = ({ begun := true }, s) := by
  have hno : (!d.begun && decide (n = 0xFEFF)) = false := by
    rcases hbom with h | h
    · simp [h]
    · have hn : n ≠ 0xFEFF := by
        rintro rfl
        exact h (hs.symm.trans rfl)
      simp [hn]
  simp [emit, hno, hs]

theorem decode_skip {d d' : Decoder} {b : UInt8} {bytes : List UInt8} (h : d.step b = (d', [])) :
    d.decode (b :: bytes) = d'.decode bytes := by
  simp only [decode, h, List.nil_append]

theorem decode_last {d : Decoder} {b : UInt8} {x : Decoder × JsString} (h : d.step b = x) :
    d.decode [b] = x := by
  simp only [decode, h, List.append_nil]

theorem decode_one {d : Decoder} (hd : d.Between) {n : Nat} (h : n < 0x80) :
    d.decode [n.toUInt8] = emit d.begun n := by
  refine decode_last ((step_first hd (by omega)).trans ?_)
  rw [first, if_pos h]

theorem decode_two {d : Decoder} (hd : d.Between) {n : Nat} (h1 : 0x80 ≤ n) (h2 : n < 0x800) :
    d.decode [(0xC0 + n / 64).toUInt8, (0x80 + n % 64).toUInt8] = emit d.begun n := by
  have hfirst : d.first (0xC0 + n / 64) =
      ({ begun := d.begun, point := n / 64, owed := 1 }, []) := by
    rw [first, if_neg (by omega), if_pos (by omega), Nat.add_sub_cancel_left]
  refine Eq.trans (decode_skip ((step_first hd (by omega)).trans hfirst)) ?_
  refine decode_last ((step_last rfl (by omega) ?_ ?_).trans ?_)
  · simp
  · simp only
    omega
  · have hn : n / 64 * 64 + (128 + n % 64 - 128) = n := by omega
    simp only [hn]

theorem decode_three {d : Decoder} (hd : d.Between) {n : Nat} (h1 : 0x800 ≤ n) (h2 : n < 0x10000)
    (hs : n < 0xD800 ∨ 0xDFFF < n) :
    d.decode [(0xE0 + n / 4096).toUInt8, (0x80 + n / 64 % 64).toUInt8, (0x80 + n % 64).toUInt8] =
      emit d.begun n := by
  have hfirst : d.first (0xE0 + n / 4096) = (⟨n / 4096, 2,
      if 0xE0 + n / 4096 = 0xE0 then 0xA0 else 0x80,
      if 0xE0 + n / 4096 = 0xED then 0x9F else 0xBF, d.begun⟩, []) := by
    rw [first, if_neg (by omega), if_neg (by omega), if_pos (by omega), Nat.add_sub_cancel_left]
  refine Eq.trans (decode_skip ((step_first hd (by omega)).trans hfirst)) ?_
  refine Eq.trans (decode_skip (step_more ?_ ?_ ?_ ?_)) ?_
  · simp
  · omega
  · simp only
    split <;> omega
  · simp only
    split <;> omega
  refine decode_last ((step_last rfl (by omega) ?_ ?_).trans ?_)
  · simp
  · simp only
    omega
  · have hn : (n / 4096 * 64 + (128 + n / 64 % 64 - 128)) * 64 + (128 + n % 64 - 128) = n := by omega
    simp only [hn]

theorem decode_four {d : Decoder} (hd : d.Between) {n : Nat} (h1 : 0x10000 ≤ n) (h2 : n ≤ 0x10FFFF) :
    d.decode [(0xF0 + n / 262144).toUInt8, (0x80 + n / 4096 % 64).toUInt8,
      (0x80 + n / 64 % 64).toUInt8, (0x80 + n % 64).toUInt8] = emit d.begun n := by
  have hfirst : d.first (0xF0 + n / 262144) = (⟨n / 262144, 3,
      if 0xF0 + n / 262144 = 0xF0 then 0x90 else 0x80,
      if 0xF0 + n / 262144 = 0xF4 then 0x8F else 0xBF, d.begun⟩, []) := by
    rw [first, if_neg (by omega), if_neg (by omega), if_neg (by omega), if_pos (by omega),
      Nat.add_sub_cancel_left]
  refine Eq.trans (decode_skip ((step_first hd (by omega)).trans hfirst)) ?_
  refine Eq.trans (decode_skip (step_more ?_ ?_ ?_ ?_)) ?_
  · simp
  · omega
  · simp only
    split <;> omega
  · simp only
    split <;> omega
  refine Eq.trans (decode_skip (step_more ?_ ?_ ?_ ?_)) ?_
  · simp
  · omega
  · simp
  · simp only
    omega
  refine decode_last ((step_last rfl (by omega) ?_ ?_).trans ?_)
  · simp
  · simp only
    omega
  · have hn : ((n / 262144 * 64 + (128 + n / 4096 % 64 - 128)) * 64 + (128 + n / 64 % 64 - 128)) * 64 +
        (128 + n % 64 - 128) = n := by omega
    simp only [hn]

theorem decode_unit {d : Decoder} (hd : d.Between) {u : CodeUnit} (hu : isHigh u = false)
    (hl : isLow u = false) : d.decode (unitBytes u.toNat) = emit d.begun u.toNat := by
  have hlt := u.toNat_lt
  have hs : u.toNat < 0xD800 ∨ 0xDFFF < u.toNat := by
    have hh : ¬(0xD800 ≤ u.toNat ∧ u.toNat ≤ 0xDBFF) := by simp [← isHigh_iff, hu]
    have hl' : ¬(0xDC00 ≤ u.toNat ∧ u.toNat ≤ 0xDFFF) := by simp [← isLow_iff, hl]
    omega
  unfold unitBytes
  split
  · exact decode_one hd (by omega)
  · split
    · exact decode_two hd (by omega) (by omega)
    · exact decode_three hd (by omega) (by omega) hs

theorem pointUnits_unit (u : CodeUnit) : pointUnits u.toNat = [u] := by
  have hlt := u.toNat_lt
  rw [pointUnits, if_pos (by omega)]
  simp

theorem pointUnits_pair {u v : CodeUnit} (hu : isHigh u = true) (hv : isLow v = true) :
    pointUnits (pairPoint u v) = [u, v] := by
  rw [isHigh_iff] at hu
  rw [isLow_iff] at hv
  have h1 : 0xD800 + (pairPoint u v - 0x10000) / 1024 = u.toNat := by
    unfold pairPoint
    omega
  have h2 : 0xDC00 + (pairPoint u v - 0x10000) % 1024 = v.toNat := by
    unfold pairPoint
    omega
  rw [pointUnits, if_neg (by unfold pairPoint; omega), h1, h2]
  simp

theorem decode_point {d : Decoder} (hd : d.Between) {p : JsString} (hp : Written p)
    (hbom : d.begun = true ∨ p ≠ [0xFEFF]) :
    d.decode (encodePoint p) = ({ begun := true }, p) := by
  rcases hp with ⟨u, rfl, hu, hl⟩ | ⟨u, v, rfl, hu, hv⟩
  · have hbytes : encodePoint [u] = unitBytes u.toNat := by simp [encodePoint, hu, hl]
    rw [hbytes, decode_unit hd hu hl]
    exact emit_eq (pointUnits_unit u) hbom
  · have h1 := (isHigh_iff u).mp hu
    have h2 := (isLow_iff v).mp hv
    rw [encodePoint, decode_four hd (by unfold pairPoint; omega) (by unfold pairPoint; omega)]
    exact emit_eq (pointUnits_pair hu hv) hbom

theorem written_of_paired (s : JsString) (h : Paired s) : ∀ p ∈ points s, Written p := by
  induction s using points_induction with
  | nil => simp
  | pair u v rest hp ih =>
    unfold Paired at h ih
    rw [hp, List.forall_mem_cons] at h
    rw [hp, List.forall_mem_cons]
    exact ⟨.inr ⟨u, v, rfl, surrogates_of_points hp⟩, ih h.2⟩
  | single u rest hp ih =>
    unfold Paired at h ih
    rw [hp, List.forall_mem_cons] at h ⊢
    exact ⟨.inl ⟨u, rfl, h.1 u rfl⟩, ih h.2⟩

theorem decode_points (ps : List JsString) (hps : ∀ p ∈ ps, Written p) {d : Decoder}
    (hd : d.Between) (hbegun : d.begun = true) :
    ∃ d' : Decoder, d'.Between ∧ d'.begun = true ∧
      d.decode (ps.flatMap encodePoint) = (d', ps.flatten) := by
  induction ps generalizing d with
  | nil => exact ⟨d, hd, hbegun, rfl⟩
  | cons p ps ih =>
    rw [List.forall_mem_cons] at hps
    obtain ⟨d', hd', hbegun', hdecode⟩ := ih hps.2 (show Between { begun := true } from rfl) rfl
    refine ⟨d', hd', hbegun', ?_⟩
    rw [List.flatMap_cons, decode_append, decode_point hd hps.1 (.inl hbegun), hdecode]
    simp

theorem decode_start {u : CodeUnit} {s : JsString} (h : Paired (u :: s)) {d : Decoder}
    (hd : d.Between) (hbom : u ≠ 0xFEFF) :
    ∃ d' : Decoder, d'.Between ∧ d'.begun = true ∧ d.decode (utf8 (u :: s)) = (d', u :: s) := by
  have hwritten := written_of_paired _ h
  have hflatten := points_flatten (u :: s)
  unfold utf8
  cases hp : points (u :: s) with
  | nil =>
    rw [hp] at hflatten
    cases hflatten
  | cons p ps =>
    rw [hp] at hwritten hflatten
    rw [List.forall_mem_cons] at hwritten
    have hpne : p ≠ [0xFEFF] := by
      rintro rfl
      simp only [List.flatten_cons, List.cons_append, List.cons.injEq] at hflatten
      exact hbom hflatten.1.symm
    obtain ⟨d', hd', hbegun, hdecode⟩ :=
      decode_points ps hwritten.2 (show Between { begun := true } from rfl) rfl
    refine ⟨d', hd', hbegun, ?_⟩
    rw [List.flatMap_cons, decode_append, decode_point hd hwritten.1 (.inr hpne), hdecode]
    simp only [List.flatten_cons] at hflatten
    simp [hflatten]

end Decoder

/-! ## Strict decoding -/

/-- A valid stream is what its text is encoded as, apart from a byte order mark that begins it; a
decoder that replaces nothing refuses any other. -/
def decodeFatal (bytes : List UInt8) : Option JsString :=
  let text := (Decoder.decode {} bytes).2
  let body := if [0xEF, 0xBB, 0xBF].isPrefixOf bytes then bytes.drop 3 else bytes
  if utf8 text = body then some text else none

theorem decodeFatal_utf8 {u : CodeUnit} {s : JsString} (hu : u < 0x80) (h : Paired (u :: s)) :
    decodeFatal (utf8 (u :: s)) = some (u :: s) := by
  have hlt : u.toNat < 0x80 := UInt16.lt_iff_toNat_lt.mp hu
  have hbom : u ≠ 0xFEFF := by
    rintro rfl
    exact absurd hlt (by decide)
  obtain ⟨d, -, -, hdecode⟩ := Decoder.decode_start h (d := {}) rfl hbom
  obtain ⟨hhigh, hlow⟩ := ascii_no_surrogate hu
  obtain ⟨bytes, hbytes⟩ : ∃ bytes, utf8 (u :: s) = u.toNat.toUInt8 :: bytes := by
    have hpoints : points (u :: s) = [u] :: points s := by
      obtain ⟨v, rest, -, hu', -⟩ | hno := points_cons u s
      · rw [hhigh] at hu'
        cases hu'
      · exact hno
    refine ⟨utf8 s, ?_⟩
    unfold utf8
    rw [hpoints, List.flatMap_cons]
    simp [encodePoint, hhigh, hlow, unitBytes, hlt]
  have hfirst : (0xEF : UInt8) ≠ u.toNat.toUInt8 := by
    intro heq
    have hnat := congrArg UInt8.toNat heq
    rw [toNat_toUInt8 (by omega)] at hnat
    have h239 : (0xEF : UInt8).toNat = 239 := rfl
    omega
  have hno : [0xEF, 0xBB, 0xBF].isPrefixOf (utf8 (u :: s)) = false := by
    rw [hbytes, List.isPrefixOf_cons_cons, beq_eq_false_iff_ne.mpr hfirst, Bool.false_and]
  unfold decodeFatal
  rw [hdecode]
  dsimp only
  rw [hno, if_neg Bool.false_ne_true, if_pos rfl]

/-! ## Lengths -/

theorem length_encodePoint {p : JsString} (h : Written p) : (encodePoint p).length = pointBytes p := by
  rcases h with ⟨u, rfl, hu, hl⟩ | ⟨u, v, rfl, -, -⟩
  · simp only [encodePoint, hu, hl, Bool.or_self, Bool.false_eq_true, if_false, unitBytes, pointBytes,
      UInt16.lt_iff_toNat_lt]
    have h1 : (0x80 : CodeUnit).toNat = 0x80 := rfl
    have h2 : (0x800 : CodeUnit).toNat = 0x800 := rfl
    rw [h1, h2]
    split
    · rfl
    · split <;> rfl
  · rfl

theorem length_utf8 {s : JsString} (h : Paired s) : (utf8 s).length = utf8Bytes s := by
  unfold utf8 utf8Bytes
  rw [List.length_flatMap]
  congr 1
  exact List.map_congr_left fun p hp => length_encodePoint (Decoder.written_of_paired s h p hp)

end Lib
end PiCloud
