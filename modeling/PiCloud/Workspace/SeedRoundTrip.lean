import PiCloud.Workspace.SeedFormat

/-!
# Workspace.SeedRoundTrip

What is written as a seed is read back, and what is put into an envelope is taken out of it.

* `restore_entries`: the entries of files that fit are restored as these files.
* `parse_create`: a seed that was created holds its files, in the order of their paths.
* `decode_encode`: an envelope holds its seed.
-/

namespace PiCloud
namespace Workspace

open Lib Protocol Attachments

variable {p : Platform}



/-! ## Entries -/

/-- What `createWorkspaceSeed` asks of a single file. -/
structure SeedFile.Fits (f : SeedFile) : Prop where
  path : validRelativePath f.path = true
  content : f.content.length ≤ maxWorkspaceSeedFileBytes

def SeedFile.entry (p : Platform) (f : SeedFile) : SeedEntry where
  path := f.path
  executable := f.executable
  sizeBytes := f.content.length
  sha256 := p.sha256 f.content
  content := toBase64 f.content

theorem seedEntry_ok {paths : List JsString} {file : SeedFile} {entry : SeedEntry}
    (h : seedEntry p paths file = .ok entry) :
    entry = file.entry p ∧ file.Fits ∧ file.path ∉ paths := by
  unfold seedEntry at h
  split at h
  · cases h
  · rename_i hok
    simp only [not_or, Bool.not_eq_false, not_lt, Bool.not_eq_true, List.contains_eq_mem,
      decide_eq_false_iff_not] at hok
    obtain ⟨hpath, hsize, hnew⟩ := hok
    exact ⟨(Except.ok.inj h).symm, ⟨hpath, hsize⟩, hnew⟩

theorem makeEntries_ok {paths : List JsString} {files : List SeedFile} {entries : List SeedEntry}
    (h : makeEntries p paths files = .ok entries) :
    entries = files.map (SeedFile.entry p) ∧ (∀ f ∈ files, f.Fits) ∧
      (files.map SeedFile.path).Nodup ∧ ∀ f ∈ files, f.path ∉ paths := by
  induction files generalizing paths entries with
  | nil =>
    obtain rfl := Except.ok.inj h
    simp
  | cons file files ih =>
    rw [makeEntries, bind_eq_ok] at h
    obtain ⟨entry, hentry, h⟩ := h
    obtain ⟨rest, hrest, h⟩ := bind_eq_ok.mp h
    obtain rfl := Except.ok.inj h
    obtain ⟨rfl, hfits, hnew⟩ := seedEntry_ok hentry
    obtain ⟨rfl, hall, hnodup, hfresh⟩ := ih hrest
    simp only [List.mem_cons, not_or] at hfresh
    refine ⟨rfl, List.forall_mem_cons.mpr ⟨hfits, hall⟩, ?_, List.forall_mem_cons.mpr
      ⟨hnew, fun f hf => (hfresh f hf).2⟩⟩
    rw [List.map_cons, List.nodup_cons]
    refine ⟨fun hmem => ?_, hnodup⟩
    obtain ⟨f, hf, heq⟩ := List.mem_map.mp hmem
    exact (hfresh f hf).1 heq

theorem pathOrder_injective : Function.Injective pathOrder :=
  List.map_injective_iff.mpr fun _ _ => UInt16.toNat_inj.mp

theorem nodup_order {files : List SeedFile} (h : (files.map SeedFile.path).Nodup) :
    (files.map fun f => pathOrder f.path).Nodup := by
  have hmap := h.map pathOrder_injective
  rwa [List.map_map] at hmap

theorem sort_entries {files : List SeedFile} (h : (files.map SeedFile.path).Nodup) :
    sortBy (fun e => pathOrder e.path) (files.map (SeedFile.entry p)) =
      (sortFiles files).map (SeedFile.entry p) := by
  refine sortBy_eq ((perm_sortBy files).map _) ?_
  rw [List.pairwise_map]
  exact pairwise_sortBy (nodup_order h)

/-! ## The document -/

theorem decode_toBase64 (bytes : Bytes) : decodeCanonicalBase64 (toBase64 bytes) = .ok bytes := by
  unfold decodeCanonicalBase64
  rw [isBase64Text_toBase64, fromBase64_toBase64, if_neg (by simp)]
  rfl

theorem entry_fields (e : SeedEntry) : ∃ m : Members, e.json = .obj m ∧
    hasExactKeys m ["path", "executable", "sizeBytes", "sha256", "content"] = true ∧
    m.get "path" = some (.str e.path) ∧ m.get "executable" = some (.bool e.executable) ∧
    m.get "sizeBytes" = some (.num e.sizeBytes) ∧ m.get "sha256" = some (.str e.sha256) ∧
    m.get "content" = some (.str e.content) := by
  have hget := get_record [("path", some (.str e.path)), ("executable", some (.bool e.executable)),
    ("sizeBytes", some (.num e.sizeBytes)), ("sha256", some (.str e.sha256)),
    ("content", some (.str e.content))] (by simp only [List.map_cons, List.map_nil]; decide +kernel)
  simp only [List.forall_mem_cons] at hget
  obtain ⟨h1, h2, h3, h4, h5, -⟩ := hget
  refine ⟨_, rfl, ?_, h1, h2, h3, h4, h5⟩
  exact decide_eq_true rfl

theorem restore_entry {paths : List JsString} {f : SeedFile} (hfits : f.Fits)
    (hnew : f.path ∉ paths) : restoreFile p paths (f.entry p).json = .ok f := by
  obtain ⟨m, hjson, hkeys, hpath, hexec, hsize, hsha, hcontent⟩ := entry_fields (f.entry p)
  have hsafe : safeInteger 0 (some (.num (f.content.length : Rat))) = true := by
    have hle := hfits.content
    have hmax : maxWorkspaceSeedFileBytes ≤ Lib.maxSafeInteger := by decide
    have h0 : (0 : Int) ≤ f.content.length := Int.natCast_nonneg _
    simp [safeInteger, h0, Nat.le_trans hle hmax]
  have hnum : ¬(maxWorkspaceSeedFileBytes : Int) < ((f.content.length : Rat)).num := by
    rw [Rat.num_natCast]
    have hle := hfits.content
    omega
  unfold restoreFile
  simp only [hjson, at?, hpath, hexec, hsize, hsha, hcontent]
  have hok : ¬(hasExactKeys m ["path", "executable", "sizeBytes", "sha256", "content"] = false ∨
      validRelativePath (f.entry p).path = false ∨
      safeInteger 0 (some (.num ((f.entry p).sizeBytes : Rat))) = false ∨
      (maxWorkspaceSeedFileBytes : Int) < (((f.entry p).sizeBytes : Rat)).num ∨
      isSha256 (f.entry p).sha256 = false ∨ paths.contains (f.entry p).path = true) := by
    rintro (h | h | h | h | h | h)
    · rw [hkeys] at h
      cases h
    · exact Bool.false_ne_true (h.symm.trans hfits.path)
    · exact Bool.false_ne_true (h.symm.trans hsafe)
    · exact hnum h
    · exact Bool.false_ne_true (h.symm.trans (p.sha256_hex _))
    · exact hnew (List.contains_iff_mem.mp h)
  have hcontents : ¬(((f.content.length : Rat)) ≠ ((f.entry p).sizeBytes : Rat) ∨
      p.sha256 f.content ≠ (f.entry p).sha256) := by
    rintro (h | h)
    · exact h rfl
    · exact h rfl
  have hdecode : decodeCanonicalBase64 (f.entry p).content = .ok f.content := decode_toBase64 _
  rw [if_neg hok, hdecode, ok_bind, if_neg hcontents]
  rfl

theorem restore_entries {paths : List JsString} {files : List SeedFile} (hfits : ∀ f ∈ files, f.Fits)
    (hnodup : (files.map SeedFile.path).Nodup) (hnew : ∀ f ∈ files, f.path ∉ paths) :
    restoreFiles p paths ((files.map (SeedFile.entry p)).map SeedEntry.json) = .ok files := by
  induction files generalizing paths with
  | nil => rfl
  | cons f files ih =>
    rw [List.forall_mem_cons] at hfits hnew
    rw [List.map_cons, List.nodup_cons] at hnodup
    have hrest : ∀ g ∈ files, g.path ∉ f.path :: paths := by
      intro g hg hmem
      obtain heq | hmem := List.mem_cons.mp hmem
      · exact hnodup.1 (heq ▸ List.mem_map_of_mem hg)
      · exact hnew.2 g hg hmem
    rw [List.map_cons, List.map_cons, restoreFiles, restore_entry hfits.1 hnew.1, ok_bind,
      ih hfits.2 hnodup.2 hrest, ok_bind]
    rfl

theorem seedEntries_document {entries : List SeedEntry}
    (h : entries.length ≤ maxWorkspaceSeedFiles) :
    seedEntries (seedDocument entries) = some (entries.map SeedEntry.json) := by
  have hget := get_record [("format", some (.str (ascii "pi-cloud.workspace-seed.v1"))),
    ("files", some (.arr (entries.map SeedEntry.json)))]
    (by simp only [List.map_cons, List.map_nil]; decide +kernel)
  simp only [List.forall_mem_cons] at hget
  obtain ⟨hformat, hfiles, -⟩ := hget
  have hkeys : hasExactKeys (record [("format", some (.str (ascii "pi-cloud.workspace-seed.v1"))),
      ("files", some (.arr (entries.map SeedEntry.json)))]) ["format", "files"] = true :=
    decide_eq_true rfl
  unfold seedEntries seedDocument
  simp only [at?, hfiles, hformat, hkeys, Bool.true_and]
  simp [isText, isStr, h]

/-! ## The text -/

theorem plain_entry {f : SeedFile} (h : f.Fits) : Plain p.number (f.entry p).json := by
  have hsafe : (f.entry p).sizeBytes ≤ p.number.safe := by
    rw [p.number_safe]
    exact Nat.le_trans h.content (by decide)
  unfold SeedEntry.json
  simp only [record, Plain, PlainMembers, and_true, true_and]
  refine ⟨?_, _, hsafe, rfl⟩
  simp only [List.map_cons, List.map_nil]
  decide +kernel

theorem plain_document {files : List SeedFile} (h : ∀ f ∈ files, f.Fits) :
    Plain p.number (seedDocument (files.map (SeedFile.entry p))) := by
  have hitems : PlainItems p.number ((files.map (SeedFile.entry p)).map SeedEntry.json) := by
    induction files with
    | nil => exact trivial
    | cons f files ih =>
      rw [List.forall_mem_cons] at h
      rw [List.map_cons, List.map_cons, PlainItems]
      exact ⟨plain_entry h.1, ih h.2⟩
  unfold seedDocument
  simp only [record, Plain, PlainMembers, and_true, true_and]
  refine ⟨?_, hitems⟩
  simp only [List.map_cons, List.map_nil]
  decide +kernel

theorem parse_document {files : List SeedFile} (h : ∀ f ∈ files, f.Fits) :
    (decodeFatal (utf8 (stringify p.number (seedDocument (files.map (SeedFile.entry p))) ++
      [0x0A]))).bind (parse p.number) = some (seedDocument (files.map (SeedFile.entry p))) := by
  have hplain := plain_document (p := p) h
  have hpaired := (stringify_paired _ hplain).append
    (utf8Bytes_of_ascii (s := [0x0A]) (by decide)).1
  have hparse := parse_stringify hplain (w := [0x0A]) (by decide)
  obtain ⟨t, ht⟩ : ∃ t, stringify p.number (seedDocument (files.map (SeedFile.entry p))) =
      0x7B :: t := by
    unfold seedDocument
    rw [stringify]
    exact ⟨_, rfl⟩
  rw [ht, List.cons_append] at hpaired hparse ⊢
  rw [decodeFatal_utf8 (by decide) hpaired]
  exact hparse

/-! ## Round trips -/

theorem create_ok {files : List SeedFile} {seed : Bytes} (h : createWorkspaceSeed p files = .ok seed) :
    files.length ≤ maxWorkspaceSeedFiles ∧ (∀ f ∈ files, f.Fits) ∧
      (files.map SeedFile.path).Nodup ∧ collides ((sortFiles files).map SeedFile.path) = false ∧
      seed = utf8 (stringify p.number (seedDocument ((sortFiles files).map (SeedFile.entry p))) ++
        [0x0A]) ∧ ∃ restored, parseWorkspaceSeed p seed = .ok restored := by
  unfold createWorkspaceSeed at h
  split at h
  · cases h
  rename_i hcount
  obtain ⟨entries, hentries, h⟩ := bind_eq_ok.mp h
  obtain ⟨rfl, hfits, hnodup, -⟩ := makeEntries_ok hentries
  rw [sort_entries hnodup] at h
  have hpaths : ((sortFiles files).map (SeedFile.entry p)).map SeedEntry.path =
      (sortFiles files).map SeedFile.path := by
    rw [List.map_map]
    rfl
  unfold encodeEntries at h
  rw [hpaths] at h
  split at h
  · cases h
  rename_i hcollides
  dsimp only at h
  split at h
  · cases h
  obtain ⟨u, hvalid, h⟩ := bind_eq_ok.mp h
  obtain rfl := Except.ok.inj h
  refine ⟨not_lt.mp hcount, hfits, hnodup, Bool.eq_false_iff.mpr hcollides, rfl, ?_⟩
  unfold validateWorkspacePayload at hvalid
  cases hparse : parseWorkspaceSeed p (utf8 (stringify p.number
      (seedDocument ((sortFiles files).map (SeedFile.entry p))) ++ [0x0A])) with
  | error e => rw [hparse] at hvalid; cases hvalid
  | ok restored => exact ⟨restored, rfl⟩

theorem sortFiles_sorted {files : List SeedFile} (h : (files.map SeedFile.path).Nodup) :
    sortFiles (sortFiles files) = sortFiles files :=
  sortBy_eq (.refl _) (pairwise_sortBy (nodup_order h))

theorem parse_ok {seed : Bytes} {files : List SeedFile} (h : parseWorkspaceSeed p seed = .ok files) :
    1 ≤ seed.length ∧ seed.length ≤ maxWorkspaceSeedBytes ∧
      ∃ parsed candidates restored, (decodeFatal seed).bind (parse p.number) = some parsed ∧
        seedEntries parsed = some candidates ∧ restoreFiles p [] candidates = .ok restored ∧
        files = sortFiles restored ∧ collides (files.map SeedFile.path) = false := by
  unfold parseWorkspaceSeed at h
  split at h
  · cases h
  rename_i hsize
  simp only [not_or, not_lt] at hsize
  split at h
  · cases h
  rename_i parsed hparsed
  split at h
  · cases h
  rename_i candidates hcandidates
  obtain ⟨restored, hrestored, h⟩ := bind_eq_ok.mp h
  split at h
  · cases h
  rename_i hcollides
  obtain rfl := Except.ok.inj h
  exact ⟨hsize.1, hsize.2, parsed, candidates, restored, hparsed, hcandidates, hrestored, rfl,
    Bool.eq_false_iff.mpr hcollides⟩

theorem parse_create {files : List SeedFile} {seed : Bytes}
    (h : createWorkspaceSeed p files = .ok seed) :
    parseWorkspaceSeed p seed = .ok (sortFiles files) := by
  obtain ⟨hcount, hfits, hnodup, -, rfl, restored, hparse⟩ := create_ok h
  obtain ⟨-, -, parsed, candidates, restored', hparsed, hcandidates, hrestored, rfl, -⟩ :=
    parse_ok hparse
  have hmem : ∀ f ∈ sortFiles files, f.Fits := fun f hf => hfits f (mem_sortBy.mp hf)
  have hnodup' : ((sortFiles files).map SeedFile.path).Nodup :=
    ((perm_sortBy files).map _).nodup_iff.mpr hnodup
  rw [parse_document hmem] at hparsed
  obtain rfl := Option.some.inj hparsed
  rw [seedEntries_document (by simpa [sortFiles] using hcount)] at hcandidates
  obtain rfl := Option.some.inj hcandidates
  rw [restore_entries hmem hnodup' (by simp)] at hrestored
  obtain rfl := Except.ok.inj hrestored
  rw [hparse, sortFiles_sorted hnodup]

theorem decode_encode {seed : Bytes} {blob : WorkspaceBlob}
    (h : encodeWorkspaceBlob p seed = .ok blob) : decodeWorkspaceBlob p blob = .ok seed := by
  unfold encodeWorkspaceBlob at h
  obtain ⟨u, hvalid, h⟩ := bind_eq_ok.mp h
  obtain rfl := Except.ok.inj h
  have hsize : ¬(seed.length < 1 ∨ maxWorkspaceBlobBytes < seed.length ∨
      seed.length ≠ seed.length ∨ p.sha256 seed ≠ p.sha256 seed) := by
    unfold validateWorkspacePayload at hvalid
    cases hparse : parseWorkspaceSeed p seed with
    | error e => rw [hparse] at hvalid; cases hvalid
    | ok restored =>
      obtain ⟨hpos, hle, -⟩ := parse_ok hparse
      have hmax : maxWorkspaceSeedBytes ≤ maxWorkspaceBlobBytes := by decide
      rintro (h | h | h | h)
      · omega
      · omega
      · exact h rfl
      · exact h rfl
  unfold decodeWorkspaceBlob
  dsimp only
  rw [decode_toBase64, ok_bind, if_neg hsize, hvalid, ok_bind]
  rfl

end Workspace
end PiCloud
