import Mathlib.Data.Set.Function
import PiCloud.Protocol.ImageAttachment

/-!
# Attachments.Codec

`ImageAttachmentCodec` of `codec.ts` and `retainedAttachmentReferences` of `retain.ts`.

* `AttachmentStore`: the store behind a codec, which returns what it was given.
* `pack`, `unpack`: image bytes go to the store and come back; the rest of the value is copied.
* `retainedAttachmentReferences`: what a stored record keeps alive.
-/

namespace PiCloud
namespace Attachments

open Lib Protocol

abbrev Bytes := List UInt8

/-! ## Base64 -/

def base64Digit (n : Nat) : CodeUnit :=
  (if n < 26 then 0x41 + n
  else if n < 52 then 0x61 + (n - 26)
  else if n < 62 then 0x30 + (n - 52)
  else if n = 62 then 0x2B
  else 0x2F).toUInt16

def toBase64 : Bytes → JsString
  | a :: b :: c :: rest =>
    base64Digit (a.toNat / 4) :: base64Digit (a.toNat % 4 * 16 + b.toNat / 16) ::
      base64Digit (b.toNat % 16 * 4 + c.toNat / 64) :: base64Digit (c.toNat % 64) :: toBase64 rest
  | [a, b] =>
    [base64Digit (a.toNat / 4), base64Digit (a.toNat % 4 * 16 + b.toNat / 16),
      base64Digit (b.toNat % 16 * 4), 0x3D]
  | [a] => [base64Digit (a.toNat / 4), base64Digit (a.toNat % 4 * 16), 0x3D, 0x3D]
  | [] => []

/-- Both alphabets are read; a character of neither is passed over. -/
def base64Value (u : CodeUnit) : Option Nat :=
  if 0x41 ≤ u ∧ u ≤ 0x5A then some (u.toNat - 0x41)
  else if 0x61 ≤ u ∧ u ≤ 0x7A then some (u.toNat - 0x61 + 26)
  else if 0x30 ≤ u ∧ u ≤ 0x39 then some (u.toNat - 0x30 + 52)
  else if u = 0x2B ∨ u = 0x2D then some 62
  else if u = 0x2F ∨ u = 0x5F then some 63
  else none

def fromSextets : List Nat → Bytes
  | a :: b :: c :: d :: rest =>
    (a * 4 + b / 16).toUInt8 :: (b % 16 * 16 + c / 4).toUInt8 :: (c % 4 * 64 + d).toUInt8 ::
      fromSextets rest
  | [a, b, c] => [(a * 4 + b / 16).toUInt8, (b % 16 * 16 + c / 4).toUInt8]
  | [a, b] => [(a * 4 + b / 16).toUInt8]
  | _ => []

def fromBase64 (s : JsString) : Bytes := fromSextets (s.filterMap base64Value)

/-! ## The store -/

structure ImageScope where
  tenantId : JsString
  runId : Option JsString

/-- A store of objects. What `put` returns refers to the bytes, and what `get` returns it returns
ever after. `seen` are the byte strings in play, which the digest tells apart. -/
structure AttachmentStore (σ : Type) (sha256 : Bytes → JsString) (seen : Set Bytes) where
  put : ImageScope → Bytes → JsString → σ → Except String AttachmentReference × σ
  get : JsString → AttachmentReference → σ → Except String Bytes
  put_ok : ∀ {scope bytes mimeType s ref}, (put scope bytes mimeType s).1 = .ok ref →
    IsImageReference ref ∧ ref.sha256 = sha256 bytes ∧ ref.byteLength = bytes.length ∧
      ref.mimeType = mimeType ∧ get scope.tenantId ref (put scope bytes mimeType s).2 = .ok bytes
  put_kept : ∀ {scope bytes mimeType s tenantId ref bytes'}, get tenantId ref s = .ok bytes' →
    get tenantId ref (put scope bytes mimeType s).2 = .ok bytes'
  get_id : ∀ {tenantId ref ref' s bytes bytes'}, get tenantId ref s = .ok bytes →
    get tenantId ref' s = .ok bytes' → ref.id = ref'.id → ref = ref'
  get_seen : ∀ {tenantId ref s bytes}, get tenantId ref s = .ok bytes → bytes ∈ seen
  apart : Set.InjOn sha256 seen

/-! ## The codec -/

structure KnownKey where
  tenantId : JsString
  runId : JsString
  mimeType : JsString
  sha256 : JsString
deriving DecidableEq

/-- The store and the references that are known of a run's images, oldest first. -/
structure Codec (σ : Type) where
  store : σ
  known : List (KnownKey × AttachmentReference)

variable {σ : Type} {sha256 : Bytes → JsString} {seen : Set Bytes}

namespace Codec

/-- `Map.set`: a key that is present keeps its place. -/
def setKnown (key : KnownKey) (ref : AttachmentReference)
    (known : List (KnownKey × AttachmentReference)) : List (KnownKey × AttachmentReference) :=
  if known.any (·.1 = key) then known.map fun p => if p.1 = key then (key, ref) else p
  else known ++ [(key, ref)]

def remember (key : KnownKey) (ref : AttachmentReference) (c : Codec σ) : Codec σ :=
  let known := setKnown key ref c.known
  { c with known := if known.length > 1024 then known.tail else known }

def put (store : AttachmentStore σ sha256 seen) (scope : ImageScope) (bytes : Bytes)
    (mimeType : JsString) : Program (Codec σ) AttachmentReference := fun c =>
  let (result, s) := store.put scope bytes mimeType c.store
  (result, { c with store := s })

end Codec

def textOf (v : Field) : JsString :=
  match v with
  | some (.str s) => s
  | _ => []

/-- An image part as `pack` takes it. -/
def isImagePart (m : Members) : Bool := isInlineImage m && isString (m.get "mimeType")

def storedImage (rest : Members) (ref : AttachmentReference) : Json :=
  .obj (rest.without ["attachment"] ++ record [
    ("type", some (.str (ascii "pi_cloud_image_v1"))), ("attachment", some (referenceJson ref))])

/-- The reference for an image: the one known of the run, or that of a new object. -/
def imageReference (store : AttachmentStore σ sha256 seen) (scope : ImageScope) (bytes : Bytes)
    (mimeType : JsString) : Program (Codec σ) AttachmentReference :=
  match scope.runId with
  | none => Codec.put store scope bytes mimeType
  | some runId => do
    let key := { tenantId := scope.tenantId, runId, mimeType, sha256 := sha256 bytes }
    let ref ← (match (← getThe (Codec σ)).known.lookup key with
      | some ref => pure ref
      | none => Codec.put store scope bytes mimeType)
    modifyThe (Codec σ) (Codec.remember key ref)
    return ref

def packImage (store : AttachmentStore σ sha256 seen) (scope : ImageScope) (m : Members) :
    Program (Codec σ) Json := do
  let data := textOf (m.get "data")
  let mimeType := textOf (m.get "mimeType")
  if !isImageMime mimeType then throw "Image must be normalized before attachment upload"
  if data.length % 4 ≠ 0 then throw "Invalid or oversized image content"
  let bytes := fromBase64 data
  if bytes = [] ∨ toBase64 bytes ≠ data then throw "Invalid or oversized image content"
  let ref ← imageReference store scope bytes mimeType
  return storedImage (m.without ["type", "data", "mimeType"]) ref

def packPart (store : AttachmentStore σ sha256 seen) (scope : ImageScope) (m : Members) :
    Option (Program (Codec σ) Json) :=
  if isStoredImage m then
    some (throw "An attachment reference cannot originate in native Tool content")
  else if isImagePart m then some (packImage store scope m)
  else none

def pack (store : AttachmentStore σ sha256 seen) (scope : ImageScope) (v : Json) :
    Program (Codec σ) Json :=
  rebuild isOpaque (packPart store scope) v

/-- An unpacking, with the images it has read so far. -/
structure Unpacking (σ : Type) where
  codec : Codec σ
  images : List (AttachmentReference × JsString) := []

/-- A reference that was read is known of the scope's run. -/
def Unpacking.remember (scope : ImageScope) (ref : AttachmentReference) (u : Unpacking σ) :
    Unpacking σ :=
  match scope.runId with
  | none => u
  | some runId =>
    let key := { tenantId := scope.tenantId, runId, mimeType := ref.mimeType, sha256 := ref.sha256 }
    { u with codec := u.codec.remember key ref }

def readImage (store : AttachmentStore σ sha256 seen) (scope : ImageScope)
    (ref : AttachmentReference) : Program (Unpacking σ) JsString := do
  let u ← getThe (Unpacking σ)
  match u.images.lookup ref with
  | some data => return data
  | none =>
    match store.get scope.tenantId ref u.codec.store with
    | .error e => throw e
    | .ok bytes =>
      if bytes.length ≠ ref.byteLength ∨ sha256 bytes ≠ ref.sha256 then
        throw "Image attachment integrity check failed"
      let data := toBase64 bytes
      set { u with images := u.images ++ [(ref, data)] }
      return data

def unpackImage (store : AttachmentStore σ sha256 seen) (scope : ImageScope) (m : Members) :
    Program (Unpacking σ) Json := do
  match parseImageAttachmentReference (m.get "attachment") with
  | .error e => throw e
  | .ok ref =>
    let data ← readImage store scope ref
    modifyThe (Unpacking σ) (Unpacking.remember scope ref)
    return .obj (m.without ["type", "attachment", "data", "mimeType"] ++ record [
      ("type", some (.str (ascii "image"))), ("data", some (.str data)),
      ("mimeType", some (.str ref.mimeType))])

def unpackPart (store : AttachmentStore σ sha256 seen) (scope : ImageScope) (m : Members) :
    Option (Program (Unpacking σ) Json) :=
  if isStoredImage m then some (unpackImage store scope m) else none

def unpack (store : AttachmentStore σ sha256 seen) (scope : ImageScope) (v : Json) :
    Program (Unpacking σ) Json :=
  rebuild isOpaque (unpackPart store scope) v

/-! ## Retention -/

def holdsReference (m : Members) : Bool := isStoredImage m || isStoredAttachment m

def retainPart (m : Members) (references : List AttachmentReference) :
    Except String (List AttachmentReference) :=
  if holdsReference m then do
    let ref ← (if isStoredImage m then parseImageAttachmentReference (m.get "attachment")
      else parseAttachmentReference (m.get "attachment"))
    match references.find? (·.id = ref.id) with
    | some existing =>
      if ref ≠ existing then throw "Attachment reference changed within the commit"
      else return references
    | none => return references ++ [ref]
  else return references

def retainedAttachmentReferences (v : Json) : Except String (List AttachmentReference) :=
  visit isOpaque holdsReference retainPart v []

end Attachments
end PiCloud
