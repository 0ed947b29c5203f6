import PiCloud.Attachments.Codec

/-!
# Attachments.Base64

The text of bytes in base64 is read back as these bytes, and has the form that strict readers
insist on.
-/

namespace PiCloud
namespace Attachments

open Lib

def isBase64Unit (u : CodeUnit) : Bool :=
  (0x41 ≤ u && u ≤ 0x5A) || (0x61 ≤ u && u ≤ 0x7A) || (0x30 ≤ u && u ≤ 0x39) || u = 0x2B || u = 0x2F

/-- Groups of four units of the alphabet, the last one perhaps padded. -/
def isBase64Text : JsString → Bool
  | [] => true
  | a :: b :: c :: d :: rest =>
    isBase64Unit a && isBase64Unit b &&
      (if rest = [] then (isBase64Unit c && (isBase64Unit d || d = 0x3D)) || (c = 0x3D && d = 0x3D)
      else isBase64Unit c && isBase64Unit d && isBase64Text rest)
  | _ => false

theorem base64Digit_spec : ∀ n < 64,
    isBase64Unit (base64Digit n) = true ∧ base64Value (base64Digit n) = some n := by
  decide

theorem toBase64_induction {P : Bytes → Prop} (nil : P []) (one : ∀ a, P [a])
    (two : ∀ a b, P [a, b]) (three : ∀ a b c rest, P rest → P (a :: b :: c :: rest)) :
    ∀ bytes, P bytes
  | [] => nil
  | [a] => one a
  | [a, b] => two a b
  | a :: b :: c :: rest => three a b c rest (toBase64_induction nil one two three rest)

theorem isBase64Text_toBase64 (bytes : Bytes) : isBase64Text (toBase64 bytes) = true := by
  have hunit : ∀ n < 64, isBase64Unit (base64Digit n) = true := fun n hn => (base64Digit_spec n hn).1
  induction bytes using toBase64_induction with
  | nil => rfl
  | one a =>
    have ha := a.toNat_lt
    simp [toBase64, isBase64Text, hunit (a.toNat / 4) (by omega),
      hunit (a.toNat % 4 * 16) (by omega)]
  | two a b =>
    have ha := a.toNat_lt
    have hb := b.toNat_lt
    simp [toBase64, isBase64Text, hunit (a.toNat / 4) (by omega),
      hunit (a.toNat % 4 * 16 + b.toNat / 16) (by omega), hunit (b.toNat % 16 * 4) (by omega)]
  | three a b c rest ih =>
    have ha := a.toNat_lt
    have hb := b.toNat_lt
    have hc := c.toNat_lt
    simp [toBase64, isBase64Text, ih, hunit (a.toNat / 4) (by omega),
      hunit (a.toNat % 4 * 16 + b.toNat / 16) (by omega),
      hunit (b.toNat % 16 * 4 + c.toNat / 64) (by omega), hunit (c.toNat % 64) (by omega)]

theorem fromBase64_toBase64 (bytes : Bytes) : fromBase64 (toBase64 bytes) = bytes := by
  have hvalue : ∀ n < 64, base64Value (base64Digit n) = some n := fun n hn =>
    (base64Digit_spec n hn).2
  have hbyte : ∀ {n : Nat} {b : UInt8}, n = b.toNat → n.toUInt8 = b := by
    rintro n b rfl
    simp
  unfold fromBase64
  induction bytes using toBase64_induction with
  | nil => rfl
  | one a =>
    have ha := a.toNat_lt
    have hpad : base64Value 0x3D = none := rfl
    simp only [toBase64, List.filterMap_cons, hvalue (a.toNat / 4) (by omega),
      hvalue (a.toNat % 4 * 16) (by omega), hpad, List.filterMap_nil, fromSextets]
    rw [hbyte (b := a) (by omega)]
  | two a b =>
    have ha := a.toNat_lt
    have hb := b.toNat_lt
    have hpad : base64Value 0x3D = none := rfl
    simp only [toBase64, List.filterMap_cons, hvalue (a.toNat / 4) (by omega),
      hvalue (a.toNat % 4 * 16 + b.toNat / 16) (by omega), hvalue (b.toNat % 16 * 4) (by omega),
      hpad, List.filterMap_nil, fromSextets]
    rw [hbyte (b := a) (by omega), hbyte (b := b) (by omega)]
  | three a b c rest ih =>
    have ha := a.toNat_lt
    have hb := b.toNat_lt
    have hc := c.toNat_lt
    simp only [toBase64, List.filterMap_cons, hvalue (a.toNat / 4) (by omega),
      hvalue (a.toNat % 4 * 16 + b.toNat / 16) (by omega),
      hvalue (b.toNat % 16 * 4 + c.toNat / 64) (by omega), hvalue (c.toNat % 64) (by omega),
      fromSextets, ih]
    rw [hbyte (b := a) (by omega), hbyte (b := b) (by omega), hbyte (b := c) (by omega)]

end Attachments
end PiCloud
