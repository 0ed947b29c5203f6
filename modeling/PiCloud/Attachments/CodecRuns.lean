import PiCloud.Attachments.Codec
import PiCloud.Lib.Run

/-!
# Attachments.CodecRuns

What packing and unpacking do, for a codec with any history.

* `Refers`: the store has the image of a reference, and it is intact.
* `pack_ends`: the value that is packed, as a relation to the value.
* `unpack_ends`: what is unpacked of it, and the references that are read for it.
-/

namespace PiCloud
namespace Attachments

open Lib Protocol

variable {σ : Type} {sha256 : Bytes → JsString} {seen : Set Bytes}
  {store : AttachmentStore σ sha256 seen}

/-! ## References that can be read -/

structure Refers (store : AttachmentStore σ sha256 seen) (tenantId : JsString) (s : σ)
    (ref : AttachmentReference) (bytes : Bytes) : Prop where
  image : IsImageReference ref
  get : store.get tenantId ref s = .ok bytes
  length : bytes.length = ref.byteLength
  digest : sha256 bytes = ref.sha256

def Kept (store : AttachmentStore σ sha256 seen) (s s' : σ) : Prop :=
  ∀ tenantId ref bytes, store.get tenantId ref s = .ok bytes →
    store.get tenantId ref s' = .ok bytes

theorem Kept.refl (s : σ) : Kept store s s := fun _ _ _ h => h

theorem Kept.trans {s s' s'' : σ} (h : Kept store s s') (h' : Kept store s' s'') :
    Kept store s s'' := fun _ _ _ hg => h' _ _ _ (h _ _ _ hg)

theorem Refers.kept {tenantId : JsString} {s s' : σ} {ref : AttachmentReference} {bytes : Bytes}
    (h : Refers store tenantId s ref bytes) (hk : Kept store s s') :
    Refers store tenantId s' ref bytes :=
  ⟨h.image, hk _ _ _ h.get, h.length, h.digest⟩

def KnownRefer (store : AttachmentStore σ sha256 seen) (c : Codec σ) : Prop :=
  ∀ p ∈ c.known, p.2.mimeType = p.1.mimeType ∧ p.2.sha256 = p.1.sha256 ∧
    ∃ bytes, Refers store p.1.tenantId c.store p.2 bytes

theorem KnownRefer.kept {c : Codec σ} (h : KnownRefer store c) {s : σ}
    (hk : Kept store c.store s) : KnownRefer store { c with store := s } := by
  intro p hp
  obtain ⟨hm, hs, bytes, hb⟩ := h p hp
  exact ⟨hm, hs, bytes, hb.kept hk⟩

theorem KnownRefer.remember {c : Codec σ} (h : KnownRefer store c) {key : KnownKey}
    {ref : AttachmentReference} (hm : ref.mimeType = key.mimeType) (hs : ref.sha256 = key.sha256)
    {bytes : Bytes} (hb : Refers store key.tenantId c.store ref bytes) :
    KnownRefer store (c.remember key ref) := by
  have hnew : ∀ p ∈ Codec.setKnown key ref c.known, p.2.mimeType = p.1.mimeType ∧
      p.2.sha256 = p.1.sha256 ∧ ∃ bytes, Refers store p.1.tenantId c.store p.2 bytes := by
    intro p hp
    unfold Codec.setKnown at hp
    split at hp
    · obtain ⟨q, hq, rfl⟩ := List.mem_map.mp hp
      split
      · exact ⟨hm, hs, bytes, hb⟩
      · exact h q hq
    · rcases List.mem_append.mp hp with hp | hp
      · exact h p hp
      · rw [List.mem_singleton.mp hp]
        exact ⟨hm, hs, bytes, hb⟩
  intro p hp
  unfold Codec.remember at hp
  simp only at hp
  split at hp
  · exact hnew p (List.mem_of_mem_tail hp)
  · exact hnew p hp

theorem lookup_known {c : Codec σ} (h : KnownRefer store c) {key : KnownKey}
    {ref : AttachmentReference} (hl : c.known.lookup key = some ref) :
    ref.mimeType = key.mimeType ∧ ref.sha256 = key.sha256 ∧
      ∃ bytes, Refers store key.tenantId c.store ref bytes := by
  obtain ⟨k, hk, hmem⟩ : ∃ k, key = k ∧ (k, ref) ∈ c.known := by
    rw [List.lookup_eq_some_iff] at hl
    obtain ⟨l₁, l₂, hl, -⟩ := hl
    exact ⟨key, rfl, by rw [hl]; simp⟩
  subst hk
  exact h _ hmem

/-! ## Packing -/

def packs (m : Members) : Bool := isStoredImage m || isImagePart m

theorem packPart_isSome (store : AttachmentStore σ sha256 seen) (scope : ImageScope) :
    (fun m => (packPart store scope m).isSome) = packs := by
  funext m
  unfold packPart packs
  split
  · rename_i h
    simp [h]
  · rename_i h
    split
    · rename_i h'
      simp [h']
    · rename_i h'
      simp [h, h']

def imageBytes (m : Members) : Bytes := fromBase64 (textOf (m.get "data"))

/-- What an image part is packed to. -/
def Stored (store : AttachmentStore σ sha256 seen) (tenantId : JsString) (s : σ) (m : Members)
    (w : Json) : Prop :=
  isStoredImage m = false ∧ ∃ ref, w = storedImage (m.without ["type", "data", "mimeType"]) ref ∧
    ref.mimeType = textOf (m.get "mimeType") ∧ toBase64 (imageBytes m) = textOf (m.get "data") ∧
    ∃ bytes, Refers store tenantId s ref bytes ∧ (imageBytes m ∈ seen → bytes = imageBytes m)

theorem Stored.kept {tenantId : JsString} {s s' : σ} {m : Members} {w : Json}
    (h : Stored store tenantId s m w) (hk : Kept store s s') : Stored store tenantId s' m w := by
  obtain ⟨hno, ref, hw, hm, hb, bytes, href, hbytes⟩ := h
  exact ⟨hno, ref, hw, hm, hb, bytes, href.kept hk, hbytes⟩

/-- Known references refer, and the store has all that it had in `s`. -/
structure Good (store : AttachmentStore σ sha256 seen) (s : σ) (c : Codec σ) : Prop where
  known : KnownRefer store c
  kept : Kept store s c.store

def PackEnds (store : AttachmentStore σ sha256 seen) {α : Type} (x : Program (Codec σ) α)
    (c : Codec σ) (Q : α → Codec σ → Prop) : Prop :=
  Ends x c (fun a c' => Good store c.store c' ∧ Q a c') fun _ c' => Good store c.store c'

section
variable {α β : Type} {c : Codec σ}

theorem PackEnds.bind {x : Program (Codec σ) α} {f : α → Program (Codec σ) β}
    {Q : α → Codec σ → Prop} {Q' : β → Codec σ → Prop} (hx : PackEnds store x c Q)
    (hf : ∀ a c', Good store c.store c' → Q a c' → PackEnds store (f a) c' Q') :
    PackEnds store (x >>= f) c Q' := by
  refine Ends.bind hx ?_
  rintro a c' ⟨hc', ha⟩
  refine Ends.imp (hf a c' hc' ha) ?_ ?_
  · rintro b c'' ⟨hc'', hb⟩
    exact ⟨⟨hc''.known, hc'.kept.trans hc''.kept⟩, hb⟩
  · intro e c'' hc''
    exact ⟨hc''.known, hc'.kept.trans hc''.kept⟩

theorem PackEnds.pure (h : KnownRefer store c) {a : α} {Q : α → Codec σ → Prop} (ha : Q a c) :
    PackEnds store (pure a) c Q := Ends.pure ⟨⟨h, Kept.refl _⟩, ha⟩

theorem PackEnds.throw (h : KnownRefer store c) (e : String) (Q : α → Codec σ → Prop) :
    PackEnds store (throw e) c Q := Ends.throw ⟨h, Kept.refl _⟩

theorem put_ends (h : KnownRefer store c) (scope : ImageScope) (bytes : Bytes)
    (mimeType : JsString) :
    PackEnds store (Codec.put store scope bytes mimeType) c fun ref c' =>
      ref.mimeType = mimeType ∧ Refers store scope.tenantId c'.store ref bytes := by
  unfold PackEnds Ends Codec.put Program.run
  have hok := @store.put_ok scope bytes mimeType c.store
  have hkept : Kept store c.store (store.put scope bytes mimeType c.store).2 :=
    fun _ _ _ hg => store.put_kept hg
  rcases hr : store.put scope bytes mimeType c.store with ⟨e | ref, s⟩
  · simp only [hr] at hkept ⊢
    exact ⟨h.kept hkept, hkept⟩
  · simp only [hr] at hok hkept ⊢
    obtain ⟨himage, hsha, hlen, hmime, hget⟩ := hok rfl
    exact ⟨⟨h.kept hkept, hkept⟩, hmime, himage, hget, hlen.symm, hsha.symm⟩

theorem imageReference_ends (h : KnownRefer store c) (scope : ImageScope) (bytes : Bytes)
    (mimeType : JsString) :
    PackEnds store (imageReference store scope bytes mimeType) c fun ref c' =>
      ref.mimeType = mimeType ∧ ∃ bytes', Refers store scope.tenantId c'.store ref bytes' ∧
        sha256 bytes' = sha256 bytes ∧ (bytes ∈ seen → bytes' = bytes) := by
  have hput : PackEnds store (Codec.put store scope bytes mimeType) c fun ref c' =>
      ref.mimeType = mimeType ∧ ∃ bytes', Refers store scope.tenantId c'.store ref bytes' ∧
        sha256 bytes' = sha256 bytes ∧ (bytes ∈ seen → bytes' = bytes) := by
    refine Ends.imp (put_ends h scope bytes mimeType) ?_ fun _ _ he => he
    rintro ref c' ⟨hc', hm, hb⟩
    exact ⟨hc', hm, bytes, hb, rfl, fun _ => rfl⟩
  unfold imageReference
  split
  · exact hput
  · rename_i runId _
    have hget : PackEnds store (getThe (Codec σ)) c fun a c' => c = a ∧ c = c' :=
      Ends.get ⟨⟨h, Kept.refl _⟩, rfl, rfl⟩
    refine PackEnds.bind hget ?_
    rintro _ _ - ⟨rfl, rfl⟩
    refine PackEnds.bind (Q := fun ref c' => ref.mimeType = mimeType ∧
      ∃ bytes', Refers store scope.tenantId c'.store ref bytes' ∧ sha256 bytes' = sha256 bytes ∧
        (bytes ∈ seen → bytes' = bytes)) ?_ ?_
    · split
      · rename_i ref hl
        obtain ⟨hm, hs, bytes', hb⟩ := lookup_known h hl
        -- the digest of the known image is that of the bytes, so they are its bytes
        have hdigest : sha256 bytes' = sha256 bytes := hb.digest.trans hs
        exact PackEnds.pure h ⟨hm, bytes', hb, hdigest, fun hseen =>
          store.apart (store.get_seen hb.get) hseen hdigest⟩
      · exact hput
    · rintro ref c' hc' ⟨hm, bytes', hb, hdigest, hbytes⟩
      have hremember : KnownRefer store
          (c'.remember ⟨scope.tenantId, runId, mimeType, sha256 bytes⟩ ref) :=
        hc'.known.remember hm (hb.digest.symm.trans hdigest) hb
      refine PackEnds.bind (Q := fun _ c'' => c''.store = c'.store)
        (Ends.modify ⟨⟨hremember, Kept.refl _⟩, rfl⟩) ?_
      rintro ⟨⟩ c'' hc'' hstore
      refine PackEnds.pure hc''.known ⟨hm, bytes', ?_, hdigest, hbytes⟩
      rw [hstore]
      exact hb

theorem packImage_ends (h : KnownRefer store c) (scope : ImageScope) (m : Members)
    (hno : isStoredImage m = false) :
    PackEnds store (packImage store scope m) c fun w c' =>
      Stored store scope.tenantId c'.store m w := by
  unfold packImage
  simp only
  split
  · exact PackEnds.throw h _ _
  · split
    · exact PackEnds.throw h _ _
    · split
      · exact PackEnds.throw h _ _
      · rename_i hdata
        simp only [not_or, not_not] at hdata
        refine PackEnds.bind (imageReference_ends h scope (imageBytes m) _) ?_
        rintro ref c' hc' ⟨hm, bytes, hb, -, hbytes⟩
        exact PackEnds.pure hc'.known ⟨hno, ref, rfl, hm, hdata.2, bytes, hb, hbytes⟩

end

/-- What `pack` makes of a value. -/
def Packed (store : AttachmentStore σ sha256 seen) (tenantId : JsString) (s : σ) :
    Json → Json → Prop :=
  Rebuilt isOpaque packs (Stored store tenantId s)

theorem pack_ends {c : Codec σ} (h : KnownRefer store c) (scope : ImageScope) (v : Json) :
    PackEnds store (pack store scope v) c fun w c' => Packed store scope.tenantId c'.store v w := by
  unfold PackEnds Packed pack
  rw [← packPart_isSome store scope]
  refine Ends.imp (rebuild_ends (I := Good store c.store) (G := fun c c' => Kept store c.store c'.store)
    (R := fun c => Stored store scope.tenantId c.store) (E := fun _ => Good store c.store)
    (fun c => Kept.refl _) (fun h h' => h.trans h') (fun hk hst => hst.kept hk)
    (P := fun _ => True) ?_ v c (fun _ _ => trivial) ⟨h, Kept.refl _⟩) ?_ fun _ _ he => he
  · intro m x c₁ hx _ hc
    have hends : PackEnds store x c₁ fun w c' => Stored store scope.tenantId c'.store m w := by
      unfold packPart at hx
      split at hx
      · cases hx
        exact PackEnds.throw hc.known _ _
      · rename_i hno
        obtain ⟨-, rfl⟩ := ite_some hx
        exact packImage_ends hc.known scope m (by simpa using hno)
    refine Ends.imp hends ?_ ?_
    · exact fun w c' hw => ⟨⟨hw.1.known, hc.kept.trans hw.1.kept⟩, hw.1.kept, hw.2⟩
    · exact fun e c' he => ⟨he.known, hc.kept.trans he.kept⟩
  · exact fun w c' hw => ⟨hw.1, hw.2.2⟩

/-! ## Unpacking -/

theorem parse_ok {v : Field} {ref : AttachmentReference}
    (h : parseImageAttachmentReference v = .ok ref) : IsImageReference ref := by
  unfold parseImageAttachmentReference parseReference at h
  split at h
  · split at h
    · rename_i q _ _ _ _ _ _ _ hok
      cases h
      simp only [Bool.and_eq_true, safeInteger, decide_eq_true_eq] at hok
      obtain ⟨⟨⟨⟨-, hid⟩, hsha⟩, ⟨-, hleast⟩, hmost⟩, hmime⟩ := hok
      exact ⟨hid, hsha, by simp only; omega, by simp only; omega, hmime⟩
    · cases h
  · cases h

/-- An unpacking of the tenant's images, which has read references with `P`. -/
structure Reading (store : AttachmentStore σ sha256 seen) (tenantId : JsString) (s : σ)
    (P : AttachmentReference → Prop) (u : Unpacking σ) : Prop where
  same : u.codec.store = s
  known : KnownRefer store u.codec
  images : ∀ p ∈ u.images, P p.1 ∧ ∃ bytes, Refers store tenantId s p.1 bytes ∧ p.2 = toBase64 bytes

def Unpacking.reads (u : Unpacking σ) : List AttachmentReference := u.images.map (·.1)

/-- The value that a stored image is unpacked to. -/
def nativeImage (m : Members) (ref : AttachmentReference) (bytes : Bytes) : Json :=
  .obj (m.without ["type", "attachment", "data", "mimeType"] ++ record [
    ("type", some (.str (ascii "image"))), ("data", some (.str (toBase64 bytes))),
    ("mimeType", some (.str ref.mimeType))])

/-- A stored image whose reference the store has. -/
def Readable (store : AttachmentStore σ sha256 seen) (tenantId : JsString) (s : σ) (m : Members) :
    Prop :=
  ∃ ref bytes, parseImageAttachmentReference (m.get "attachment") = .ok ref ∧
    Refers store tenantId s ref bytes

/-- A stored image is read. -/
def Native (store : AttachmentStore σ sha256 seen) (tenantId : JsString) (s : σ)
    (reads : List AttachmentReference) (m : Members) (x : Json) : Prop :=
  ∃ ref bytes, parseImageAttachmentReference (m.get "attachment") = .ok ref ∧
    Refers store tenantId s ref bytes ∧ ref ∈ reads ∧ x = nativeImage m ref bytes

section
variable {s : σ} {P : AttachmentReference → Prop} {u : Unpacking σ}

theorem readImage_ends {scope : ImageScope} (h : Reading store scope.tenantId s P u)
    {ref : AttachmentReference} (himage : IsImageReference ref) (hP : P ref) :
    Ends (readImage store scope ref) u
      (fun data u' => Reading store scope.tenantId s P u' ∧ u.reads ⊆ u'.reads ∧ ref ∈ u'.reads ∧
        ∃ bytes, Refers store scope.tenantId s ref bytes ∧ data = toBase64 bytes)
      (fun _ u' => Reading store scope.tenantId s P u' ∧
        ¬∃ bytes, Refers store scope.tenantId s ref bytes) := by
  unfold readImage
  refine Ends.bind (Ends.get (Q := fun a u' => u = a ∧ u = u') ⟨rfl, rfl⟩) ?_
  rintro _ _ ⟨rfl, rfl⟩
  split
  · rename_i data hl
    rw [List.lookup_eq_some_iff] at hl
    obtain ⟨l₁, l₂, himages, -⟩ := hl
    have hmem : (ref, data) ∈ u.images := by simp [himages]
    exact Ends.pure ⟨h, List.Subset.refl _, List.mem_map_of_mem hmem, (h.images _ hmem).2⟩
  · split
    · rename_i e he
      refine Ends.throw ⟨h, ?_⟩
      rintro ⟨bytes, hb⟩
      have hget := hb.get
      rw [← h.same, he] at hget
      cases hget
    · rename_i bytes hget
      split
      · rename_i hbad
        refine Ends.throw ⟨h, ?_⟩
        rintro ⟨bytes', hb⟩
        have hget' := hb.get
        rw [← h.same, hget] at hget'
        cases hget'
        exact hbad.elim (fun hne => hne hb.length) fun hne => hne hb.digest
      · rename_i hok
        simp only [not_or, not_not] at hok
        have hb : Refers store scope.tenantId s ref bytes :=
          ⟨himage, h.same ▸ hget, hok.1, hok.2⟩
        refine Ends.bind (Ends.set (Q := fun _ u' =>
          { u with images := u.images ++ [(ref, toBase64 bytes)] } = u') rfl) ?_
        rintro ⟨⟩ _ rfl
        refine Ends.pure ⟨⟨h.same, h.known, ?_⟩, ?_, ?_, bytes, hb, rfl⟩
        · intro p hp
          rcases List.mem_append.mp hp with hp | hp
          · exact h.images p hp
          · rw [List.mem_singleton.mp hp]
            exact ⟨hP, bytes, hb, rfl⟩
        · simp [Unpacking.reads]
        · simp [Unpacking.reads]

theorem unpackImage_ends {scope : ImageScope} (h : Reading store scope.tenantId s P u)
    {m : Members} (hP : ∀ ref, parseImageAttachmentReference (m.get "attachment") = .ok ref → P ref) :
    Ends (unpackImage store scope m) u
      (fun x u' => Reading store scope.tenantId s P u' ∧ u.reads ⊆ u'.reads ∧
        Native store scope.tenantId s u'.reads m x)
      (fun _ u' => Reading store scope.tenantId s P u' ∧ ¬Readable store scope.tenantId s m) := by
  unfold unpackImage
  split
  · rename_i e he
    refine Ends.throw ⟨h, ?_⟩
    rintro ⟨ref, bytes, hparse, -⟩
    rw [he] at hparse
    cases hparse
  · rename_i ref hparse
    refine Ends.bind (Ends.imp (readImage_ends h (parse_ok hparse) (hP ref hparse))
      (fun _ _ hd => hd) ?_) ?_
    · rintro e u' ⟨hu', hno⟩
      refine ⟨hu', ?_⟩
      rintro ⟨ref', bytes, hparse', hb⟩
      rw [hparse] at hparse'
      cases hparse'
      exact hno ⟨bytes, hb⟩
    · rintro data u₁ ⟨h₁, hsub, href, bytes, hb, rfl⟩
      refine Ends.bind (Q := fun _ u' => Reading store scope.tenantId s P u' ∧
        u'.images = u₁.images) ?_ ?_
      · refine Ends.modify ?_
        unfold Unpacking.remember
        split
        · exact ⟨h₁, rfl⟩
        · have hb₁ : Refers store scope.tenantId u₁.codec.store ref bytes := h₁.same ▸ hb
          exact ⟨⟨h₁.same, h₁.known.remember rfl rfl hb₁, h₁.images⟩, rfl⟩
      · rintro ⟨⟩ u₂ ⟨h₂, himages⟩
        have hreads : u₂.reads = u₁.reads := by rw [Unpacking.reads, himages]; rfl
        refine Ends.pure ⟨h₂, ?_, ref, bytes, hparse, hb, ?_, rfl⟩
        · rwa [hreads]
        · rwa [hreads]

end

def ReferencedBy (w : Json) (ref : AttachmentReference) : Prop :=
  ∃ m ∈ objects isOpaque isStoredImage w, isStoredImage m = true ∧
    parseImageAttachmentReference (m.get "attachment") = .ok ref

theorem unpackPart_isSome (store : AttachmentStore σ sha256 seen) (scope : ImageScope) :
    (fun m => (unpackPart store scope m).isSome) = isStoredImage := by
  funext m
  unfold unpackPart
  split
  · rename_i h
    simp [h]
  · rename_i h
    simpa using h

theorem unpack_ends {s : σ} {u : Unpacking σ} {scope : ImageScope} {w : Json}
    (h : Reading store scope.tenantId s (ReferencedBy w) u) :
    Ends (unpack store scope w) u
      (fun x u' => Reading store scope.tenantId s (ReferencedBy w) u' ∧
        Rebuilt isOpaque isStoredImage (Native store scope.tenantId s u'.reads) w x)
      (fun _ u' => Reading store scope.tenantId s (ReferencedBy w) u' ∧
        ∃ m ∈ objects isOpaque isStoredImage w, isStoredImage m = true ∧
          ¬Readable store scope.tenantId s m) := by
  unfold unpack
  have hsome := unpackPart_isSome store scope
  have hends : Ends (rebuild isOpaque (unpackPart store scope) w) u
      (fun x u' => Reading store scope.tenantId s (ReferencedBy w) u' ∧ u.reads ⊆ u'.reads ∧
        Rebuilt isOpaque (fun m => (unpackPart store scope m).isSome)
          (Native store scope.tenantId s u'.reads) w x)
      (fun _ u' => Reading store scope.tenantId s (ReferencedBy w) u' ∧
        ∃ m ∈ objects isOpaque isStoredImage w, isStoredImage m = true ∧
          ¬Readable store scope.tenantId s m) := by
    refine rebuild_ends (G := fun u u' => u.reads ⊆ u'.reads)
      (R := fun u => Native store scope.tenantId s u.reads)
      (P := fun m => m ∈ objects isOpaque isStoredImage w)
      (fun _ => List.Subset.refl _) (fun h h' => List.Subset.trans h h') ?_ ?_ w u ?_ h
    · rintro u₁ u₂ m x hsub ⟨ref, bytes, hparse, hb, href, hx⟩
      exact ⟨ref, bytes, hparse, hb, hsub href, hx⟩
    · intro m x u₁ hx hm hu₁
      unfold unpackPart at hx
      obtain ⟨hstored, rfl⟩ := ite_some hx
      refine Ends.imp (unpackImage_ends hu₁ fun ref hparse => ⟨m, hm, hstored, hparse⟩)
        (fun _ _ hx => hx) ?_
      exact fun e u' he => ⟨he.1, m, hm, hstored, he.2⟩
    · rw [hsome]
      exact fun m hm => hm
  rw [hsome] at hends
  exact Ends.imp hends (fun x u' hx => ⟨hx.1, hx.2.2⟩) fun _ _ he => he

/-! ## Runs of a codec -/

/-- The calls on a codec; `elsewhere` is what others do to the store. -/
inductive Call where
  | pack (scope : ImageScope) (v : Json)
  | unpack (scope : ImageScope) (w : Json)
  | elsewhere

def calls (store : AttachmentStore σ sha256 seen) : System (Codec σ) Call where
  init c := c.known = []
  step c call c' :=
    match call with
    | .pack scope v => c' = ((pack store scope v).run c).2
    | .unpack scope w => c' = ((unpack store scope w).run { codec := c }).2.codec
    | .elsewhere => c'.known = c.known ∧ Kept store c.store c'.store

theorem reach_known {cs : List Call} {c : Codec σ} (h : Reach (calls store) cs c) :
    KnownRefer store c := by
  refine Reach.invariant (KnownRefer store) ?_ ?_ h
  · intro c hc p hp
    simp only [calls] at hc
    simp [hc] at hp
  · intro c call c' hc hstep
    cases call with
    | pack scope v =>
      obtain rfl := hstep
      have hends := pack_ends hc scope v
      unfold PackEnds Ends at hends
      rcases hr : (pack store scope v).run c with ⟨e | w, c'⟩
      · rw [hr] at hends
        exact hends.known
      · rw [hr] at hends
        exact hends.1.known
    | unpack scope w =>
      obtain rfl := hstep
      have hends := unpack_ends (w := w) (u := { codec := c })
        (⟨rfl, hc, fun p hp => by simp at hp⟩ : Reading store scope.tenantId c.store _ _)
      unfold Ends at hends
      rcases hr : (unpack store scope w).run { codec := c } with ⟨e | x, u⟩
      · rw [hr] at hends
        exact hends.1.known
      · rw [hr] at hends
        exact hends.1.known
    | elsewhere =>
      obtain ⟨hknown, hkept⟩ := hstep
      intro p hp
      rw [hknown] at hp
      obtain ⟨hm, hs, bytes, hb⟩ := hc p hp
      exact ⟨hm, hs, bytes, hb.kept hkept⟩

end Attachments
end PiCloud
