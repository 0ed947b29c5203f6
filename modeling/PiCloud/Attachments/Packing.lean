import PiCloud.Attachments.CodecRuns

/-!
# Attachments.Packing

Packing against unpacking, the payload check and retention: four walks over one value.

* `unpacked_alike`: unpacking gives the value back where no image part has an `attachment` field.
* `accepted_iff`: which packed values the payload check accepts.
* `retained_iff`: where retention takes the references that unpacking reads.
* `packing_lossless_iff`: all three at once.
-/

namespace PiCloud
namespace Attachments

open Lib Protocol

variable {σ : Type} {sha256 : Bytes → JsString} {seen : Set Bytes}
  {store : AttachmentStore σ sha256 seen} {tenantId : JsString} {s : σ}

/-! ## Parts -/

theorem isText_get {v : Field} {text : String} (h : isText v text = true) :
    v = some (.str (ascii text)) := by
  unfold isText isStr at h
  split at h
  · rw [of_decide_eq_true h]
  · cases h

theorem isString_get {v : Field} (h : isString v = true) : v = some (.str (textOf v)) := by
  unfold isString at h
  split at h
  · rfl
  · cases h

theorem image_fields {m : Members} (h : isImagePart m = true) :
    m.get "type" = some (.str (ascii "image")) ∧ m.get "data" = some (.str (textOf (m.get "data"))) ∧
      m.get "mimeType" = some (.str (textOf (m.get "mimeType"))) := by
  simp only [isImagePart, isInlineImage, Bool.and_eq_true] at h
  exact ⟨isText_get h.1.1, isString_get h.1.2, isString_get h.2⟩

theorem texts_apart :
    (∀ p ∈ [("image", "pi_cloud_image_v1"), ("image", "pi_cloud_attachment_v1"),
      ("pi_cloud_image_v1", "image"), ("pi_cloud_image_v1", "pi_cloud_attachment_v1"),
      ("attachment", "type"), ("attachment", "data"), ("attachment", "mimeType"), ("data", "type"),
      ("mimeType", "data"), ("mimeType", "type"), ("type", "id"), ("type", "sha256"),
      ("type", "byteLength"), ("type", "mimeType")], ascii p.1 ≠ ascii p.2) ∧
    Distinct ["type", "attachment"] ∧ isOpaque (ascii "data") = true ∧
    isOpaque (ascii "type") = false ∧ isOpaque (ascii "attachment") = false := by
  decide +kernel

theorem isImagePart_not_stored {m : Members} (h : isImagePart m = true) :
    isStoredImage m = false ∧ isStoredAttachment m = false := by
  simp only [isStoredImage, isStoredAttachment, isText, isStr, (image_fields h).1]
  exact ⟨decide_eq_false (texts_apart.1 ("image", "pi_cloud_image_v1") (by simp)),
    decide_eq_false (texts_apart.1 ("image", "pi_cloud_attachment_v1") (by simp))⟩

theorem get_storedImage (rest : Members) (ref : AttachmentReference)
    (h : rest.has "type" = false) :
    let n := rest.without ["attachment"] ++ record [
      ("type", some (.str (ascii "pi_cloud_image_v1"))), ("attachment", some (referenceJson ref))]
    Members.get n "type" = some (.str (ascii "pi_cloud_image_v1")) ∧
      Members.get n "attachment" = some (referenceJson ref) := by
  have hget := get_record [("type", some (.str (ascii "pi_cloud_image_v1"))),
    ("attachment", some (referenceJson ref))] texts_apart.2.1
  simp only [List.forall_mem_cons] at hget
  obtain ⟨h1, h2, -⟩ := hget
  refine ⟨?_, ?_⟩
  · rw [Members.get_append_of_lacks (Members.has_without_le h), h1]
  · rw [Members.get_append_of_lacks (Members.without_lacks List.mem_cons_self), h2]

theorem packed_type_lacks (m : Members) :
    (m.without ["type", "data", "mimeType"]).has "type" = false :=
  Members.without_lacks List.mem_cons_self

theorem Packed.no_stored {v w : Json} (h : Packed store tenantId s v w) :
    ∀ m ∈ objects isOpaque packs v, isStoredImage m = false := by
  intro m hm
  by_contra hno
  have hstored : isStoredImage m = true := by simpa using hno
  obtain ⟨w', hw'⟩ := Rebuilt.at v w h m hm (by simp [packs, hstored])
  rw [hw'.1] at hstored
  cases hstored

theorem Stored.is_object {m : Members} {w : Json} (h : Stored store tenantId s m w) :
    ∃ n, w = .obj n := by
  obtain ⟨-, ref, rfl, -⟩ := h
  exact ⟨_, rfl⟩

theorem Packed.objects_eq {v w : Json} (h : Packed store tenantId s v w) :
    objects isOpaque isImagePart v = objects isOpaque packs v := by
  refine objects_congr v fun m hm => ?_
  simp [packs, h.no_stored m hm]

theorem isStoredImage_packed {m n : Members}
    (h : RebuiltMembers isOpaque packs (Stored store tenantId s) m n) :
    isStoredImage n = isStoredImage m :=
  h.isText (fun _ _ => Stored.is_object) "type" "pi_cloud_image_v1"

theorem isStoredAttachment_packed {m n : Members}
    (h : RebuiltMembers isOpaque packs (Stored store tenantId s) m n) :
    isStoredAttachment n = isStoredAttachment m :=
  h.isText (fun _ _ => Stored.is_object) "type" "pi_cloud_attachment_v1"

theorem isInlineImage_packed {m n : Members}
    (h : RebuiltMembers isOpaque packs (Stored store tenantId s) m n) :
    isInlineImage n = isInlineImage m := by
  have htype := h.isText (fun _ _ => Stored.is_object) "type" "image"
  have hdata : n.get "data" = m.get "data" := by
    rcases h.get "data" with ⟨hm, hn⟩ | ⟨v, w, hm, hn, hw⟩
    · rw [hm, hn]
    · rw [if_pos texts_apart.2.2.1] at hw
      rw [hm, hn, hw]
  rw [isInlineImage, isInlineImage, htype, hdata]

/-! ## Unpacking what was packed -/

/-- An image part after its way through the store. -/
def returned (m : Members) : Json :=
  .obj (m.without ["type", "data", "mimeType", "attachment"] ++ record [
    ("type", some (.str (ascii "image"))), ("data", some (.str (textOf (m.get "data")))),
    ("mimeType", some (.str (textOf (m.get "mimeType"))))])

theorem nativeImage_stored {m n : Members} {ref : AttachmentReference} {bytes : Bytes}
    (hn : Json.obj n = storedImage (m.without ["type", "data", "mimeType"]) ref)
    (hm : ref.mimeType = textOf (m.get "mimeType")) (hb : toBase64 bytes = textOf (m.get "data")) :
    nativeImage n ref bytes = returned m := by
  simp only [storedImage, Json.obj.injEq] at hn
  subst hn
  unfold nativeImage returned
  rw [hm, hb, Members.without_append]
  have hnone : (record [("type", some (Json.str (ascii "pi_cloud_image_v1"))),
      ("attachment", some (referenceJson ref))]).without
        ["type", "attachment", "data", "mimeType"] = [] := by
    simp [record, Members.without]
  rw [hnone, List.append_nil, Members.without_without,
    Members.without_without,
    Members.without_congr m (N := ["type", "data", "mimeType", "attachment"]) ?_]
  intro k
  simp only [List.map_append, List.map_cons, List.map_nil, List.mem_append, List.mem_cons,
    List.not_mem_nil, or_false]
  tauto

theorem Packed.returned {reads : List AttachmentReference} (v w x : Json)
    (hseen : ∀ m ∈ objects isOpaque packs v, isImagePart m = true → imageBytes m ∈ seen)
    (hw : Packed store tenantId s v w)
    (hx : Rebuilt isOpaque isStoredImage (Native store tenantId s reads) w x) :
    Rebuilt isOpaque packs (fun m x => isStoredImage m = false ∧ x = returned m) v x := by
  refine Rebuilt.comp ?_ ?_ v w x
    (fun m hm => (⟨hseen m hm, hw.no_stored m hm⟩ : (isImagePart m = true → imageBytes m ∈ seen) ∧
      isStoredImage m = false)) hw hx
  · rintro m n - ⟨-, hno⟩ hn
    rw [isStoredImage_packed hn, hno]
  · rintro m w x hm ⟨hseen, hno⟩ ⟨-, ref, rfl, hmime, hdata, bytes, href, hbytes⟩ hx
    have himage : isImagePart m = true := by simpa [packs, hno] using hm
    obtain rfl := hbytes (hseen himage)
    obtain ⟨htype, hattachment⟩ := get_storedImage _ ref (packed_type_lacks m)
    simp only [storedImage, Rebuilt] at hx
    rw [if_pos (by simp [isStoredImage, isText, isStr, htype])] at hx
    obtain ⟨ref', bytes', hparse, href', -, rfl⟩ := hx
    rw [hattachment, parse_referenceJson href.image] at hparse
    obtain rfl := Except.ok.inj hparse
    have hsame : Except.ok bytes' = Except.ok (imageBytes m) := href'.get.symm.trans href.get
    obtain rfl := Except.ok.inj hsame
    exact ⟨hno, nativeImage_stored rfl hmime hdata⟩

/-! ## The value that comes back -/

theorem returned_alike {m : Members} (h : isImagePart m = true) (hnodup : (m.map (·.1)).Nodup) :
    Alike (.obj m) (returned m) ↔ m.has "attachment" = false := by
  obtain ⟨htype, hdata, hmime⟩ := image_fields h
  constructor
  · rintro ⟨n, hn, halike⟩
    simp only [returned, Json.obj.injEq] at hn
    subst hn
    rw [Members.lacks_iff]
    intro p hp heq
    have hmem : ascii "attachment" ∈ m.map (·.1) := heq ▸ List.mem_map_of_mem hp
    rw [← halike.names.mem_iff] at hmem
    simp only [List.map_append, Members.names_without, record, List.mem_append, List.mem_filter,
      List.map_cons, List.map_nil, List.mem_cons, List.not_mem_nil, or_false] at hmem
    rcases hmem with ⟨-, hno⟩ | hmem
    · simp at hno
    · simp [texts_apart.1 ("attachment", "type"), texts_apart.1 ("attachment", "data"),
        texts_apart.1 ("attachment", "mimeType")] at hmem
  · intro hlacks
    have hwithout : m.without ["type", "data", "mimeType", "attachment"] =
        ((m.without ["type"]).without ["data"]).without ["mimeType"] := by
      rw [Members.without_without, Members.without_without]
      have hlast : (m.without ["type", "data", "mimeType"]).without ["attachment"] =
          m.without ["type", "data", "mimeType"] :=
        Members.without_eq_self (by simpa using Members.has_without_le hlacks)
      rw [Members.without_without] at hlast
      exact hlast
    have hnodup₁ : ((m.without ["type"]).map (·.1)).Nodup := by
      rw [Members.names_without]
      exact hnodup.filter _
    have hnodup₂ : (((m.without ["type"]).without ["data"]).map (·.1)).Nodup := by
      rw [Members.names_without]
      exact hnodup₁.filter _
    have h₁ := Members.perm_without hnodup htype
    have hother : ∀ {a b : String}, ascii a ≠ ascii b → ascii a ∉ [b].map ascii := by
      simp
    have h₂ := Members.perm_without hnodup₁ ((Members.get_without m
      (hother (texts_apart.1 ("data", "type") (by simp)))).trans hdata)
    have h₃ := Members.perm_without hnodup₂ ((Members.get_without _
      (hother (texts_apart.1 ("mimeType", "data") (by simp)))).trans ((Members.get_without m
        (hother (texts_apart.1 ("mimeType", "type") (by simp)))).trans hmime))
    refine ⟨_, rfl, AlikeMembers.of_perm ?_⟩
    rw [hwithout]
    simp only [record]
    refine h₁.trans ((h₂.append_right _).trans (((h₃.append_right _).append_right _).trans ?_))
    simp only [List.append_assoc, List.cons_append, List.nil_append]
    exact (List.perm_append_left_iff _).mpr (List.reverse_perm [_, _, _])

/-- Unpacking gives the value back exactly where no image part has a field `attachment`. -/
theorem unpacked_alike {reads : List AttachmentReference} {v w x : Json} (hproper : Proper v)
    (hseen : ∀ m ∈ objects isOpaque packs v, isImagePart m = true → imageBytes m ∈ seen)
    (hw : Packed store tenantId s v w)
    (hx : Rebuilt isOpaque isStoredImage (Native store tenantId s reads) w x) :
    Alike v x ↔ ∀ m ∈ objects isOpaque isImagePart v, isImagePart m = true →
      m.has "attachment" = false := by
  have hreturned := Packed.returned v w x hseen hw hx
  have hiff := Rebuilt.alike_iff (P := fun m => isImagePart m = true → m.has "attachment" = false)
    ?_ v x (fun m hm => hproper m (objects_subset v hm)) hreturned
  · rw [hiff, hw.objects_eq]
    refine forall₂_congr fun m hm => ?_
    simp [packs, hw.no_stored m hm]
  · rintro m x hm hnodup ⟨hno, rfl⟩
    have himage : isImagePart m = true := by simpa [packs, hno] using hm
    rw [returned_alike himage hnodup]
    simp [himage]

/-! ## The payload check -/

theorem foldlM_unit {α : Type} {f : α → Except String Unit} (l : List α) :
    l.foldlM (fun _ a => f a) () = .ok () ↔ ∀ a ∈ l, f a = .ok () := by
  induction l with
  | nil => simp [pure, Except.pure]
  | cons a l ih =>
    rw [List.foldlM_cons, bind_eq_ok, List.forall_mem_cons]
    constructor
    · rintro ⟨⟨⟩, ha, hl⟩
      exact ⟨ha, ih.mp hl⟩
    · rintro ⟨ha, hl⟩
      exact ⟨(), ha, ih.mpr hl⟩

theorem validate_ok (v : Json) : validateImageReferencePayload v = .ok () ↔
    ∀ m ∈ objects isOpaque (fun _ => false) v, validatePart m () = .ok () := by
  unfold validateImageReferencePayload
  rw [visit_eq]
  exact foldlM_unit (f := fun m => validatePart m ()) _

theorem validatePart_ok (m : Members) : validatePart m () = .ok () ↔
    isInlineImage m = false ∧
    (isStoredImage m = true → ∃ ref, parseImageAttachmentReference (m.get "attachment") = .ok ref) ∧
    (isStoredAttachment m = true → ∃ ref, parseAttachmentReference (m.get "attachment") = .ok ref) := by
  unfold validatePart
  cases isInlineImage m <;> cases isStoredImage m <;> cases isStoredAttachment m <;>
    cases parseImageAttachmentReference (m.get "attachment") <;>
    cases parseAttachmentReference (m.get "attachment") <;>
    simp [bind, Except.bind, pure, Except.pure, throw, throwThe, MonadExceptOf.throw]

def acceptedRest (m : Members) : Prop :=
  validateImageReferencePayload (.obj (m.without ["type", "data", "mimeType", "attachment"])) = .ok ()

theorem objects_referenceJson (ref : AttachmentReference) :
    objects isOpaque (fun _ => false) (referenceJson ref) = [record [
      ("id", some (.str ref.id)), ("sha256", some (.str ref.sha256)),
      ("byteLength", some (.num ref.byteLength)), ("mimeType", some (.str ref.mimeType))]] := by
  simp [referenceJson, objects, objectsMembers, record]

theorem validatePart_of_no_type {m : Members} (h : m.get "type" = none) :
    validatePart m () = .ok () := by
  rw [validatePart_ok]
  simp [isInlineImage, isStoredImage, isStoredAttachment, isText, isStr, h]

theorem get_of_lacks {m : Members} {name : String} (h : m.has name = false) :
    m.get name = none := by
  simpa [Members.has] using h

theorem storedImage_accepted {m : Members} {ref : AttachmentReference}
    (href : IsImageReference ref) :
    (∀ n ∈ objects isOpaque (fun _ => false) (storedImage (m.without ["type", "data", "mimeType"]) ref),
      validatePart n () = .ok ()) ↔ acceptedRest m := by
  obtain ⟨htype, hattachment⟩ := get_storedImage _ ref (packed_type_lacks m)
  have hself : validatePart ((m.without ["type", "data", "mimeType"]).without ["attachment"] ++ record
      [("type", some (.str (ascii "pi_cloud_image_v1"))), ("attachment", some (referenceJson ref))])
      () = .ok () := by
    rw [validatePart_ok]
    simp only [isInlineImage, isStoredImage, isStoredAttachment, isText, isStr, htype, hattachment]
    refine ⟨?_, fun _ => ⟨ref, parse_referenceJson href⟩, fun h => absurd (of_decide_eq_true h)
      (texts_apart.1 ("pi_cloud_image_v1", "pi_cloud_attachment_v1") (by simp))⟩
    rw [Bool.and_eq_false_iff]
    exact .inl (decide_eq_false (texts_apart.1 ("pi_cloud_image_v1", "image") (by simp)))
  have hrest : (m.without ["type", "data", "mimeType"]).without ["attachment"] =
      m.without ["type", "data", "mimeType", "attachment"] := Members.without_without m _ _
  have hfields : validatePart (record [
      ("id", some (.str ref.id)), ("sha256", some (.str ref.sha256)),
      ("byteLength", some (.num ref.byteLength)), ("mimeType", some (.str ref.mimeType))]) () =
      .ok () :=
    validatePart_of_no_type (get_of_lacks (record_lacks
      (by simp [texts_apart.1 ("type", "id"), texts_apart.1 ("type", "sha256"),
        texts_apart.1 ("type", "byteLength"), texts_apart.1 ("type", "mimeType")])))
  have hnotype : validatePart (m.without ["type", "data", "mimeType", "attachment"]) () = .ok () :=
    validatePart_of_no_type (get_of_lacks (Members.without_lacks List.mem_cons_self))
  have hopaque : isOpaque (ascii "type") = false ∧ isOpaque (ascii "attachment") = false :=
    texts_apart.2.2.2
  unfold acceptedRest
  rw [validate_ok]
  rw [hrest] at hself
  simp only [storedImage, hrest, objects, Bool.false_eq_true, if_false, List.forall_mem_cons, hself,
    hnotype, true_and, objectsMembers_append, List.forall_mem_append]
  have htail : objectsMembers isOpaque (fun _ => false) (record [
      ("type", some (.str (ascii "pi_cloud_image_v1"))), ("attachment", some (referenceJson ref))]) =
      objects isOpaque (fun _ => false) (referenceJson ref) := by
    simp [record, objectsMembers, hopaque, objects]
  rw [htail, objects_referenceJson]
  simp [hfields]

/-- Objects that are not image parts hold no inline image, and what image parts hold beside the
image is accepted. -/
def acceptedPart (m : Members) : Prop :=
  if isImagePart m then acceptedRest m else isInlineImage m = false

theorem accepted_iff {v w : Json} (hw : Packed store tenantId s v w)
    (hno : ∀ m ∈ objects isOpaque isImagePart v, isStoredAttachment m = false) :
    validateImageReferencePayload w = .ok () ↔
      ∀ m ∈ objects isOpaque isImagePart v, acceptedPart m := by
  rw [validate_ok, hw.objects_eq]
  rw [hw.objects_eq] at hno
  refine Rebuilt.forall_objects_iff ?_ ?_ v w
    (fun m hm => (⟨hno m hm, hw.no_stored m hm⟩ : isStoredAttachment m = false ∧
      isStoredImage m = false)) hw
  · rintro m n hm ⟨hno, hstored⟩ hn
    refine ⟨rfl, ?_⟩
    have himage : isImagePart m = false := by simpa [packs, hstored] using hm
    rw [validatePart_ok, isStoredImage_packed hn, isStoredAttachment_packed hn, hno, hstored]
    simp only [Bool.false_eq_true, false_implies, and_true, acceptedPart, himage, if_false]
    rw [isInlineImage_packed hn]
  · rintro m w hm ⟨-, hstored⟩ ⟨-, ref, rfl, -, -, bytes, href, -⟩
    have himage : isImagePart m = true := by simpa [packs, hstored] using hm
    rw [storedImage_accepted href.image, acceptedPart, if_pos himage]

/-! ## Retention -/

def retainedParts (w : Json) : List Members :=
  (objects isOpaque holdsReference w).filter holdsReference

def readParts (w : Json) : List Members :=
  (objects isOpaque isStoredImage w).filter isStoredImage

def RetainsReads (w : Json) (reads : List AttachmentReference) : Prop :=
  retainedParts w = readParts w ∧ ∃ refs, retainedAttachmentReferences w = .ok refs ∧
    ∀ ref, ref ∈ refs ↔ ref ∈ reads

theorem not_both_stored {m : Members} (h : isStoredImage m = true) : isStoredAttachment m = false := by
  unfold isStoredImage at h
  unfold isStoredAttachment
  rw [isText_get h]
  exact decide_eq_false (texts_apart.1 ("pi_cloud_image_v1", "pi_cloud_attachment_v1") (by simp))

theorem no_uploads_iff {v w : Json} (hw : Packed store tenantId s v w) :
    (∀ n ∈ objects isOpaque isStoredImage w, isStoredAttachment n = false) ↔
      ∀ m ∈ objects isOpaque isImagePart v, isStoredAttachment m = false := by
  rw [hw.objects_eq]
  refine Rebuilt.forall_objects_iff ?_ ?_ v w (fun m hm => hw.no_stored m hm) hw
  · intro m n _ hstored hn
    rw [isStoredImage_packed hn, isStoredAttachment_packed hn]
    exact ⟨hstored, Iff.rfl⟩
  · rintro m w hm hstored ⟨-, ref, rfl, -⟩
    have himage : isImagePart m = true := by simpa [packs, hstored] using hm
    obtain ⟨htype, -⟩ := get_storedImage _ ref (packed_type_lacks m)
    have hpacked : isStoredImage ((m.without ["type", "data", "mimeType"]).without ["attachment"] ++
        record [("type", some (.str (ascii "pi_cloud_image_v1"))),
          ("attachment", some (referenceJson ref))]) = true := by
      simp [isStoredImage, isText, isStr, htype]
    simp [storedImage, objects, hpacked, not_both_stored hpacked,
      (isImagePart_not_stored himage).2]

theorem retainedParts_eq_iff (w : Json) : retainedParts w = readParts w ↔
    ∀ n ∈ objects isOpaque isStoredImage w, isStoredAttachment n = false := by
  constructor
  · intro h
    have hall : ∀ n ∈ objects isOpaque holdsReference w, holdsReference n = isStoredImage n := by
      intro n hn
      cases hh : holdsReference n with
      | true =>
        have hmem : n ∈ retainedParts w := List.mem_filter.mpr ⟨hn, hh⟩
        rw [h] at hmem
        exact (List.mem_filter.mp hmem).2.symm
      | false =>
        simp only [holdsReference, Bool.or_eq_false_iff] at hh
        exact hh.1.symm
    rw [objects_congr w hall]
    intro n hn
    by_contra hno
    have hupload : isStoredAttachment n = true := by simpa using hno
    have himage : isStoredImage n = true := by
      rw [← hall n hn]
      simp [holdsReference, hupload]
    rw [not_both_stored himage] at hupload
    cases hupload
  · intro h
    have hall : ∀ n ∈ objects isOpaque isStoredImage w, isStoredImage n = holdsReference n := by
      intro n hn
      simp [holdsReference, h n hn]
    unfold retainedParts readParts
    rw [objects_congr w hall]
    exact List.filter_congr fun n hn => (hall n hn).symm

theorem retain_fold (store : AttachmentStore σ sha256 seen) (tenantId : JsString) (s : σ)
    (l : List Members) (hread : ∀ m ∈ l, isStoredImage m = true → Readable store tenantId s m)
    (hno : ∀ m ∈ l, isStoredAttachment m = false) (init : List AttachmentReference)
    (hinit : ∀ ref ∈ init, ∃ bytes, store.get tenantId ref s = .ok bytes) :
    ∃ refs, l.foldlM (fun refs m => retainPart m refs) init = .ok refs ∧
      ∀ ref, ref ∈ refs ↔ ref ∈ init ∨ ∃ m ∈ l, isStoredImage m = true ∧
        parseImageAttachmentReference (m.get "attachment") = .ok ref := by
  induction l generalizing init with
  | nil => exact ⟨init, rfl, by simp⟩
  | cons m l ih =>
    simp only [List.forall_mem_cons] at hread hno
    rw [List.foldlM_cons]
    cases hm : isStoredImage m with
    | false =>
      have hpart : retainPart m init = .ok init := by
        simp [retainPart, holdsReference, hm, hno.1, pure, Except.pure]
      obtain ⟨refs, hrefs, hall⟩ := ih hread.2 hno.2 init hinit
      refine ⟨refs, by rw [hpart]; exact hrefs, fun ref => ?_⟩
      rw [hall ref]
      simp [hm]
    | true =>
      obtain ⟨ref, bytes, hparse, hb⟩ := hread.1 hm
      obtain ⟨init', hpart, hmem⟩ : ∃ init', retainPart m init = .ok init' ∧
          ∀ r, r ∈ init' ↔ r ∈ init ∨ r = ref := by
        simp only [retainPart, holdsReference, hm, Bool.true_or, if_true, hparse, ok_bind]
        split
        · rename_i existing hfind
          have hid : existing.id = ref.id := by simpa using List.find?_some hfind
          obtain ⟨bytes', hb'⟩ := hinit existing (List.mem_of_find?_eq_some hfind)
          -- one identity is one object of the store
          obtain rfl := store.get_id hb' hb.get hid
          refine ⟨init, by simp [pure, Except.pure], fun r => ?_⟩
          have hin := List.mem_of_find?_eq_some hfind
          constructor
          · exact .inl
          · rintro (h | rfl)
            · exact h
            · exact hin
        · exact ⟨init ++ [ref], rfl, by simp⟩
      have hinit' : ∀ r ∈ init', ∃ bytes, store.get tenantId r s = .ok bytes := by
        intro r hr
        rcases (hmem r).mp hr with hr | rfl
        · exact hinit r hr
        · exact ⟨bytes, hb.get⟩
      obtain ⟨refs, hrefs, hall⟩ := ih hread.2 hno.2 init' hinit'
      refine ⟨refs, by rw [hpart]; exact hrefs, fun r => ?_⟩
      rw [hall r, hmem r]
      simp only [List.mem_cons, exists_eq_or_imp, hm, hparse, true_and, Except.ok.injEq]
      rw [or_assoc, eq_comm]

/-! ## All four walks -/

theorem Packed.readable {v w : Json} (hw : Packed store tenantId s v w) :
    ∀ n ∈ objects isOpaque isStoredImage w, isStoredImage n = true → Readable store tenantId s n := by
  refine (Rebuilt.forall_objects_iff (B := fun _ => True) ?_ ?_ v w
    (fun m hm => hw.no_stored m hm) hw).mpr fun _ _ => trivial
  · intro m n _ hstored hn
    have hno : isStoredImage n = false := (isStoredImage_packed hn).trans hstored
    simp [hno]
  · rintro m w - - ⟨-, ref, rfl, -, -, bytes, href, -⟩
    obtain ⟨htype, hattachment⟩ := get_storedImage _ ref (packed_type_lacks m)
    have hpacked : isStoredImage ((m.without ["type", "data", "mimeType"]).without ["attachment"] ++
        record [("type", some (.str (ascii "pi_cloud_image_v1"))),
          ("attachment", some (referenceJson ref))]) = true := by
      simp [isStoredImage, isText, isStr, htype]
    simp only [storedImage, objects, hpacked, if_true, List.forall_mem_cons, forall_const,
      List.not_mem_nil, false_implies, and_true, iff_true]
    exact ⟨ref, bytes, by rw [hattachment, parse_referenceJson href.image], href⟩

def plainPart (m : Members) : Prop :=
  if isImagePart m then m.has "attachment" = false ∧ acceptedRest m
  else isInlineImage m = false ∧ isStoredAttachment m = false

theorem plainPart_iff (m : Members) : plainPart m ↔
    (isImagePart m = true → m.has "attachment" = false) ∧ acceptedPart m ∧
      isStoredAttachment m = false := by
  unfold plainPart acceptedPart
  cases himage : isImagePart m with
  | true => simp [(isImagePart_not_stored himage).2]
  | false => simp

/-- For a codec and a reader with any history: unpacking gives the packed value back, the payload
check accepts it and retention takes what unpacking reads, exactly where every part is plain. -/
theorem packing_lossless_iff (store : AttachmentStore σ sha256 seen) (cs ds : List Call)
    (c d c' : Codec σ) (hc : Reach (calls store) cs c) (hd : Reach (calls store) ds d)
    (scope reader : ImageScope) (htenant : reader.tenantId = scope.tenantId) (v w : Json)
    (hproper : Proper v)
    (hseen : ∀ m ∈ objects isOpaque isImagePart v, isImagePart m = true → imageBytes m ∈ seen)
    (hpack : (pack store scope v).run c = (.ok w, c')) (hkept : Kept store c'.store d.store) :
    (∃ x u, (unpack store reader w).run { codec := d } = (.ok x, u) ∧ Alike v x ∧
      validateImageReferencePayload w = .ok () ∧ RetainsReads w u.reads) ↔
    ∀ m ∈ objects isOpaque isImagePart v, plainPart m := by
  have hends := pack_ends (reach_known hc) scope v
  unfold PackEnds Ends at hends
  rw [hpack] at hends
  have hw : Packed store reader.tenantId d.store v w := by
    rw [htenant]
    exact Rebuilt.mono (fun _ _ hst => hst.kept hkept) v w hends.2
  rw [hw.objects_eq] at hseen
  have hreads := unpack_ends (w := w) (u := { codec := d })
    (⟨rfl, reach_known hd, fun p hp => by simp at hp⟩ : Reading store reader.tenantId d.store _ _)
  unfold Ends at hreads
  rcases hr : (unpack store reader w).run { codec := d } with ⟨e | x, u⟩
  · rw [hr] at hreads
    obtain ⟨-, m, hm, hstored, hno⟩ := hreads
    exact absurd (hw.readable m hm hstored) hno
  · rw [hr] at hreads
    obtain ⟨hu, hx⟩ := hreads
    have hretains : RetainsReads w u.reads ↔
        ∀ m ∈ objects isOpaque isImagePart v, isStoredAttachment m = false := by
      rw [← no_uploads_iff hw, ← retainedParts_eq_iff]
      refine ⟨fun h => h.1, fun h => ⟨h, ?_⟩⟩
      have hno := (retainedParts_eq_iff w).mp h
      have hall : ∀ n ∈ objects isOpaque isStoredImage w, isStoredImage n = holdsReference n := by
        intro n hn
        simp [holdsReference, hno n hn]
      obtain ⟨refs, hrefs, hmem⟩ := retain_fold store reader.tenantId d.store _
        (fun m hm => hw.readable m hm) hno [] (by simp)
      refine ⟨refs, ?_, fun ref => ?_⟩
      · rw [retainedAttachmentReferences, visit_eq, objects_congr w hall]
        exact hrefs
      · rw [hmem ref]
        simp only [List.not_mem_nil, false_or]
        constructor
        · rintro ⟨m, hm, hstored, hparse⟩
          obtain ⟨_, ref', bytes, hparse', -, hmem, -⟩ := Rebuilt.at w x hx m hm hstored
          rw [hparse] at hparse'
          obtain rfl := Except.ok.inj hparse'
          exact hmem
        · intro href
          obtain ⟨p, hp, rfl⟩ := List.mem_map.mp href
          exact (hu.images p hp).1
    have hsplit : (∀ m ∈ objects isOpaque isImagePart v, plainPart m) ↔
        (∀ m ∈ objects isOpaque isImagePart v, isImagePart m = true → m.has "attachment" = false) ∧
        (∀ m ∈ objects isOpaque isImagePart v, acceptedPart m) ∧
        ∀ m ∈ objects isOpaque isImagePart v, isStoredAttachment m = false := by
      simp only [plainPart_iff, forall_and]
    rw [hsplit, ← unpacked_alike hproper hseen hw hx]
    constructor
    · rintro ⟨x', u', hrun, halike, hvalid, hretain⟩
      cases hrun
      have hno := hretains.mp hretain
      exact ⟨halike, (accepted_iff hw hno).mp hvalid, hno⟩
    · rintro ⟨halike, haccepted, hno⟩
      exact ⟨x, u, rfl, halike, (accepted_iff hw hno).mpr haccepted, hretains.mpr hno⟩

/-! ## A store of one image -/

def oneReference : AttachmentReference where
  id := ascii "00000000-0000-4000-8000-000000000000"
  sha256 := ascii "709e80c88487a2411e1ee4dfb9f22a861492d20c4765150c0c794abd70f8147c"
  byteLength := 3
  mimeType := ascii "image/png"

/-- The store of the tenant that has put three zero bytes. -/
def oneStore : AttachmentStore (Option JsString) (fun _ => oneReference.sha256) {[0, 0, 0]} where
  put scope bytes mimeType s :=
    if s = none ∧ bytes = [0, 0, 0] ∧ mimeType = ascii "image/png" then
      (.ok oneReference, some scope.tenantId)
    else (.error "Attachment is unavailable in this tenant", s)
  get tenantId ref s :=
    if s = some tenantId ∧ ref = oneReference then .ok [0, 0, 0]
    else .error "Attachment is unavailable in this tenant"
  put_ok := by
    intro scope bytes mimeType s ref h
    split at h
    · rename_i hput
      obtain ⟨rfl, rfl, rfl⟩ := hput
      cases h
      refine ⟨⟨by decide +kernel, by decide +kernel, by decide, by decide, by decide +kernel⟩, rfl, rfl,
        rfl, ?_⟩
      simp
    · cases h
  put_kept := by
    intro scope bytes mimeType s tenantId ref bytes' h
    split at h
    · rename_i hget
      obtain ⟨rfl, rfl⟩ := hget
      simpa using h
    · cases h
  get_id := by
    intro tenantId ref ref' s bytes bytes' h h' _
    split at h
    · rename_i hget
      split at h'
      · rename_i hget'
        rw [hget.2, hget'.2]
      · cases h'
    · cases h
  get_seen := by
    intro tenantId ref s bytes h
    split at h
    · cases h
      rfl
    · cases h
  apart := Set.injOn_singleton _ _

def oneImage (more : List (String × Field)) : Members :=
  record ([("type", some (Json.str (ascii "image"))), ("data", some (.str (ascii "AAAA"))),
    ("mimeType", some (.str (ascii "image/png")))] ++ more)

def oneScope : ImageScope := ⟨ascii "t", none⟩

def oneCodec : Codec (Option JsString) := ⟨none, []⟩

def oneCodec' : Codec (Option JsString) := ⟨some (ascii "t"), []⟩

/-- An image without further fields comes back. -/
theorem packing_lossless_iff_one :
    ∃ w x u, (pack oneStore oneScope (.obj (oneImage []))).run oneCodec = (.ok w, oneCodec') ∧
      (unpack oneStore oneScope w).run { codec := oneCodec' } = (.ok x, u) ∧
      Alike (.obj (oneImage [])) x ∧ validateImageReferencePayload w = .ok () ∧
      RetainsReads w u.reads := by
  have hpack : (pack oneStore oneScope (.obj (oneImage []))).run oneCodec =
      (.ok (storedImage [] oneReference), oneCodec') := rfl
  have hobjects : objects isOpaque isImagePart (.obj (oneImage [])) = [oneImage []] := rfl
  have hproper : Proper (.obj (oneImage [])) := by
    unfold Proper
    decide +kernel
  have hseen : ∀ m ∈ objects isOpaque isImagePart (.obj (oneImage [])), isImagePart m = true →
      imageBytes m ∈ ({[0, 0, 0]} : Set Bytes) := by
    rw [hobjects]
    simp only [List.mem_singleton, forall_eq]
    exact fun _ => rfl
  have hplain : ∀ m ∈ objects isOpaque isImagePart (.obj (oneImage [])), plainPart m := by
    rw [hobjects]
    simp only [List.mem_singleton, forall_eq]
    exact ⟨rfl, rfl⟩
  obtain ⟨x, u, hx⟩ := (packing_lossless_iff oneStore [] [] oneCodec oneCodec' oneCodec' (.init rfl)
    (.init rfl) oneScope oneScope rfl (.obj (oneImage [])) _ hproper hseen hpack
    (Kept.refl _)).mpr hplain
  exact ⟨_, x, u, hpack, hx⟩

/-- A field `attachment` beside the image does not come back. -/
theorem attachment_field_lost : ∃ w c' x u,
    (pack oneStore oneScope (.obj (oneImage [("attachment", some (.str (ascii "note")))]))).run
      oneCodec = (.ok w, c') ∧
    (unpack oneStore oneScope w).run { codec := c' } = (.ok x, u) ∧
    ¬Alike (.obj (oneImage [("attachment", some (.str (ascii "note")))])) x := by
  refine ⟨storedImage [] oneReference, oneCodec', .obj (oneImage []), _, rfl, rfl, ?_⟩
  rintro ⟨n, hn, halike⟩
  cases hn
  exact absurd halike.names.length_eq (by decide +kernel)

end Attachments
end PiCloud
