import PiCloud.Lib.JsonWalk

/-!
# Protocol.ImageAttachment

References to attachments, `attachment-reference.ts` and `image-attachment.ts`, and the check that a
payload carries images by reference only.
-/

namespace PiCloud
namespace Protocol

open Lib

def imageOpaqueFields : List String :=
  ["details", "arguments", "effectiveArgs", "data", "resumeData"]

def isOpaque (name : JsString) : Bool := (imageOpaqueFields.map ascii).contains name

structure AttachmentReference where
  id : JsString
  sha256 : JsString
  byteLength : Nat
  mimeType : JsString
deriving DecidableEq

def referenceJson (ref : AttachmentReference) : Json :=
  .obj (record [
    ("id", some (.str ref.id)),
    ("sha256", some (.str ref.sha256)),
    ("byteLength", some (.num ref.byteLength)),
    ("mimeType", some (.str ref.mimeType))])

/-! ## Patterns -/

def isDigit (u : CodeUnit) : Bool := 0x30 ≤ u && u ≤ 0x39

/-- `[0-9a-f]` -/
def isHex (u : CodeUnit) : Bool := isDigit u || (0x61 ≤ u && u ≤ 0x66)

/-- `[0-9a-fA-F]` -/
def isAnyHex (u : CodeUnit) : Bool := isHex u || (0x41 ≤ u && u ≤ 0x46)

def isOneOf (chars : String) (u : CodeUnit) : Bool := (ascii chars).contains u

def fits (classes : List (CodeUnit → Bool)) (s : JsString) : Bool :=
  s.length = classes.length && (classes.zip s).all fun p => p.1 p.2

def uuidPattern (hex : CodeUnit → Bool) (version variant : CodeUnit → Bool) :
    List (CodeUnit → Bool) :=
  let dash := [isOneOf "-"]
  List.replicate 8 hex ++ dash ++ List.replicate 4 hex ++ dash ++ version :: List.replicate 3 hex ++
    dash ++ variant :: List.replicate 3 hex ++ dash ++ List.replicate 12 hex

def isImageId (s : JsString) : Bool :=
  fits (uuidPattern isHex (isOneOf "4") (isOneOf "89ab")) s

def isUuid (s : JsString) : Bool :=
  fits (uuidPattern isAnyHex (isOneOf "12345678") (isOneOf "89abAB")) s

def isSha256 (s : JsString) : Bool := fits (List.replicate 64 isHex) s

def imageMimeTypes : List String := ["image/png", "image/jpeg", "image/webp"]

def isImageMime (s : JsString) : Bool := (imageMimeTypes.map ascii).contains s

/-- `[a-zA-Z0-9!#$&^_.+-]` -/
def isMimeChar (u : CodeUnit) : Bool :=
  isDigit u || (0x41 ≤ u && u ≤ 0x5A) || (0x61 ≤ u && u ≤ 0x7A) || isOneOf "!#$&^_.+-" u

def isMime (s : JsString) : Bool :=
  s.length ≤ 128 &&
    match s.span (isMimeChar ·) with
    | (type, slash :: subtype) =>
      !type.isEmpty && slash = 0x2F && !subtype.isEmpty && subtype.all (isMimeChar ·)
    | (_, []) => false

/-! ## Parsing -/

/-- A reference has its four fields and no other. -/
def parseReference (isId isMimeType : JsString → Bool) (error : String) (v : Field) :
    Except String AttachmentReference :=
  match at? v "id", at? v "sha256", at? v "byteLength", at? v "mimeType", v with
  | some (.str id), some (.str sha256), some (.num q), some (.str mimeType), some (.obj m) =>
    if Members.onlyKeys m ["id", "sha256", "byteLength", "mimeType"] && isId id && isSha256 sha256 &&
        safeInteger 1 (some (.num q)) && isMimeType mimeType then
      .ok { id, sha256, byteLength := q.num.toNat, mimeType }
    else .error error
  | _, _, _, _, _ => .error error

def parseImageAttachmentReference (v : Field) : Except String AttachmentReference :=
  parseReference isImageId isImageMime "Invalid image attachment reference" v

def parseAttachmentReference (v : Field) : Except String AttachmentReference :=
  parseReference isUuid isMime "Invalid attachment reference" v

def isStoredImage (m : Members) : Bool := isText (m.get "type") "pi_cloud_image_v1"

def isStoredAttachment (m : Members) : Bool := isText (m.get "type") "pi_cloud_attachment_v1"

def isInlineImage (m : Members) : Bool :=
  isText (m.get "type") "image" && isString (m.get "data")

def validatePart (m : Members) (_ : Unit) : Except String Unit := do
  if isInlineImage m then throw "Inline image bytes are forbidden in Kafka records"
  if isStoredImage m then
    let _ ← parseImageAttachmentReference (m.get "attachment")
  if isStoredAttachment m then
    let _ ← parseAttachmentReference (m.get "attachment")

def validateImageReferencePayload (v : Json) : Except String Unit :=
  visit isOpaque (fun _ => false) validatePart v ()

/-! ## What a reference is -/

/-- The fields of a reference that the image schema accepts. -/
structure IsImageReference (ref : AttachmentReference) : Prop where
  id : isImageId ref.id = true
  sha256 : isSha256 ref.sha256 = true
  positive : 1 ≤ ref.byteLength
  safe : ref.byteLength ≤ maxSafeInteger
  mimeType : isImageMime ref.mimeType = true

theorem parse_referenceJson {ref : AttachmentReference} (h : IsImageReference ref) :
    parseImageAttachmentReference (some (referenceJson ref)) = .ok ref := by
  have hget := get_record [("id", some (.str ref.id)), ("sha256", some (.str ref.sha256)),
    ("byteLength", some (.num ref.byteLength)), ("mimeType", some (.str ref.mimeType))]
    (by simp only [List.map_cons, List.map_nil]; decide +kernel)
  have honly : (record [("id", some (.str ref.id)), ("sha256", some (.str ref.sha256)),
      ("byteLength", some (.num ref.byteLength)), ("mimeType", some (.str ref.mimeType))]).onlyKeys
      ["id", "sha256", "byteLength", "mimeType"] = true := onlyKeys_record (by simp)
  unfold parseImageAttachmentReference parseReference referenceJson at?
  generalize record [("id", some (.str ref.id)), ("sha256", some (.str ref.sha256)),
    ("byteLength", some (.num ref.byteLength)), ("mimeType", some (.str ref.mimeType))] = m at *
  simp only [List.forall_mem_cons] at hget
  obtain ⟨h1, h2, h3, h4, -⟩ := hget
  have hsafe : safeInteger 1 (some (.num (ref.byteLength : Rat))) = true := by
    have hp := h.positive
    have hs := h.safe
    have hle : (1 : Int) ≤ ref.byteLength := by omega
    simp [safeInteger, hle, hs]
  simp only [h1, h2, h3, h4, honly, h.id, h.sha256, h.mimeType, hsafe, Bool.and_self, if_true,
    Rat.num_natCast, Int.toNat_natCast]

end Protocol
end PiCloud
