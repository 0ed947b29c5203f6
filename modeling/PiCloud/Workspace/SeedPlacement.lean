import Mathlib.Data.List.Pairwise
import PiCloud.Workspace.SeedRoundTrip

/-!
# Workspace.SeedPlacement

Whether the files of a seed find room in an empty directory.

* `Clear`: what the paths of a seed must be like.
* `placed_iff`: the files of an accepted seed lie apart and are all created exactly if they are
  clear. The test between neighbours alone does not see to it: a path that sorts between a name and
  its slash keeps the two from being neighbours.
-/

namespace PiCloud
namespace Workspace

open Lib Protocol Attachments

variable {p : Platform}

/-! ## Accepted seeds -/

theorem restoreFile_fresh {paths : List JsString} {candidate : Json} {file : SeedFile}
    (h : restoreFile p paths candidate = .ok file) : file.path ∉ paths := by
  unfold restoreFile at h
  dsimp only at h
  split at h
  · split at h
    · cases h
    · rename_i hok
      obtain ⟨bytes, -, h⟩ := bind_eq_ok.mp h
      split at h
      · cases h
      · obtain rfl := Except.ok.inj h
        simp only [not_or, List.contains_iff_mem] at hok
        exact hok.2.2.2.2.2
  · cases h

theorem restoreFiles_nodup {paths : List JsString} {candidates : List Json} {files : List SeedFile}
    (h : restoreFiles p paths candidates = .ok files) :
    (files.map SeedFile.path).Nodup ∧ ∀ f ∈ files, f.path ∉ paths := by
  induction candidates generalizing paths files with
  | nil =>
    obtain rfl := Except.ok.inj h
    simp
  | cons candidate candidates ih =>
    rw [restoreFiles, bind_eq_ok] at h
    obtain ⟨file, hfile, h⟩ := h
    obtain ⟨rest, hrest, h⟩ := bind_eq_ok.mp h
    obtain rfl := Except.ok.inj h
    obtain ⟨hnodup, hfresh⟩ := ih hrest
    simp only [List.mem_cons, not_or] at hfresh
    rw [List.map_cons, List.nodup_cons]
    refine ⟨⟨fun hmem => ?_, hnodup⟩, List.forall_mem_cons.mpr
      ⟨restoreFile_fresh hfile, fun f hf => (hfresh f hf).2⟩⟩
    obtain ⟨f, hf, heq⟩ := List.mem_map.mp hmem
    exact (hfresh f hf).1 heq

theorem accepted {seed : Bytes} {files : List SeedFile} (h : parseWorkspaceSeed p seed = .ok files) :
    (files.map fun f => pathOrder f.path).Pairwise (· < ·) ∧
      collides (files.map SeedFile.path) = false := by
  obtain ⟨-, -, parsed, candidates, restored, -, -, hrestored, rfl, hcollides⟩ := parse_ok h
  refine ⟨?_, hcollides⟩
  rw [List.pairwise_map]
  exact pairwise_sortBy (nodup_order (restoreFiles_nodup hrestored).1)

/-! ## Neighbours -/

theorem below_iff (d q : JsString) :
    below d q = true ↔ pathOrder d ++ [slash.toNat] <+: pathOrder q := by
  have hmap : pathOrder d ++ [slash.toNat] = (d ++ [slash]).map UInt16.toNat := by
    simp [pathOrder]
  rw [hmap, pathOrder, List.prefix_map_iff_of_injective fun _ _ => UInt16.toNat_inj.mp]
  exact List.isPrefixOf_iff_prefix

theorem isChain_of_collides {paths : List JsString} (h : collides paths = false) :
    (paths.map pathOrder).IsChain fun d q => ¬d ++ [slash.toNat] <+: q := by
  induction paths with
  | nil => exact .nil
  | cons d paths ih =>
    cases paths with
    | nil => exact .singleton _
    | cons q paths =>
      rw [collides, Bool.or_eq_false_iff] at h
      refine List.isChain_cons_cons.mpr ⟨?_, ih h.2⟩
      rw [← below_iff, h.1]
      exact Bool.false_ne_true

theorem crowded_of_below {files : List SeedFile}
    (hsorted : (files.map fun f => pathOrder f.path).Pairwise (· < ·))
    (hcollides : collides (files.map SeedFile.path) = false) {f g : SeedFile} (hf : f ∈ files)
    (hg : g ∈ files) (h : below f.path g.path = true) :
    ∃ c ∈ files, ∃ u, u < slash ∧ f.path ++ [u] <+: c.path := by
  have hchain := isChain_of_collides hcollides
  rw [List.map_map] at hchain
  obtain ⟨u, hu, r, hr, hbegin⟩ := below_of_neighbours hsorted hchain
    (List.mem_map_of_mem hf) (List.mem_map_of_mem hg) ((below_iff _ _).mp h)
  obtain ⟨c, hc, rfl⟩ := List.mem_map.mp hr
  obtain ⟨t, ht, heq⟩ := List.prefix_map_iff.mp hbegin
  -- the unit behind the path, as the path of the third file has it
  obtain ⟨d, rest, rfl, hd, hrest⟩ := List.map_eq_append_iff.mp heq.symm
  obtain ⟨v, tail, rfl, rfl, htail⟩ := List.map_eq_cons_iff.mp hrest
  obtain rfl := List.map_eq_nil_iff.mp htail
  obtain rfl := pathOrder_injective hd
  exact ⟨c, hc, v, UInt16.lt_iff_toNat_lt.mpr hu, ht⟩

/-! ## Room for every file -/

/-- No path that has another one below it is also continued by a unit that sorts before the slash,
and no two paths fall together, or one into the other, when their unpaired surrogates are written as
U+FFFD. -/
structure Clear (files : List SeedFile) : Prop where
  uncrowded : ∀ f ∈ files, ∀ g ∈ files, below f.path g.path = true →
    ∀ c ∈ files, ∀ u, u < slash → ¬f.path ++ [u] <+: c.path
  told : ∀ f ∈ files, ∀ g ∈ files, f.path ≠ g.path → fileNames f.path <+: fileNames g.path →
    below f.path g.path = true

/-- No path is a directory of another one, and in an empty directory every file is created. -/
def Placed (p : Platform) (seed : Bytes) (files : List SeedFile) : Prop :=
  (∀ f ∈ files, ∀ g ∈ files, below f.path g.path = false) ∧
    ∃ tree, initializeWorkspaceSeed p {} seed = .ok (some (tree, files)) ∧
      ∀ f ∈ files, tree.get (fileNames f.path) = some (.file (f.executable, f.content))

theorem fileNames_ne_nil (path : JsString) : fileNames path ≠ [] := by
  unfold fileNames
  rw [ne_eq, List.map_eq_nil_iff]
  exact List.splitOn_ne_nil _ _

theorem placed_iff {seed : Bytes} {files : List SeedFile} (h : parseWorkspaceSeed p seed = .ok files) :
    Placed p seed files ↔ Clear files := by
  obtain ⟨hsorted, hcollides⟩ := accepted h
  have hrun : ∀ tree made, initializeWorkspaceSeed p {} seed = .ok (some (tree, made)) ↔
      NameTree.fill (fun f : SeedFile => fileNames f.path) (fun f => (f.executable, f.content)) {}
        files = some (tree, made) := by
    intro tree made
    unfold initializeWorkspaceSeed
    rw [h, ok_bind]
    exact ⟨fun heq => Except.ok.inj heq, fun heq => congrArg Except.ok heq⟩
  have hfill : (∃ tree, NameTree.fill (fun f : SeedFile => fileNames f.path)
      (fun f => (f.executable, f.content)) {} files = some (tree, files)) ↔
        files.Pairwise fun f g => NameTree.Apart (fileNames f.path) (fileNames g.path) :=
    NameTree.fill_iff fun f _ => fileNames_ne_nil f.path
  constructor
  · rintro ⟨hbelow, tree, hinit, -⟩
    have hapart := hfill.mp ⟨tree, (hrun tree files).mp hinit⟩
    refine ⟨fun f hf g hg hfg => absurd hfg (by simp [hbelow f hf g hg]), ?_⟩
    intro f hf g hg hne hnames
    have hsymm : Std.Symm fun f g : SeedFile =>
        NameTree.Apart (fileNames f.path) (fileNames g.path) := ⟨fun _ _ hab => ⟨hab.2, hab.1⟩⟩
    exact absurd hnames (hapart.forall hf hg fun heq => hne (congrArg _ heq)).1
  · intro hclear
    have hbelow : ∀ f ∈ files, ∀ g ∈ files, below f.path g.path = false := by
      intro f hf g hg
      by_contra hfg
      have hfg : below f.path g.path = true := Bool.not_eq_false _ ▸ hfg
      obtain ⟨c, hc, u, hu, hbegin⟩ := crowded_of_below hsorted hcollides hf hg hfg
      exact hclear.uncrowded f hf g hg hfg c hc u hu hbegin
    have hnever : ∀ f ∈ files, ∀ g ∈ files, f.path ≠ g.path →
        ¬fileNames f.path <+: fileNames g.path := by
      intro f hf g hg hne hnames
      have hfg := hclear.told f hf g hg hne hnames
      rw [hbelow f hf g hg] at hfg
      cases hfg
    have hapart : files.Pairwise fun f g =>
        NameTree.Apart (fileNames f.path) (fileNames g.path) := by
      refine (List.pairwise_map.mp hsorted).imp_of_mem fun {f g} hf hg hlt => ?_
      have hne : f.path ≠ g.path := fun heq => ne_of_lt hlt (congrArg pathOrder heq)
      exact ⟨hnever f hf g hg hne, hnever g hg f hf hne.symm⟩
    obtain ⟨tree, htree⟩ := hfill.mpr hapart
    exact ⟨hbelow, tree, (hrun tree files).mpr htree, (NameTree.fill_holds htree).2⟩

/-! ## Seeds -/

theorem created_of_isSome (p : Platform) (files : List SeedFile)
    (h : (createWorkspaceSeed p files).toOption.isSome = true) :
    ∃ seed, createWorkspaceSeed p files = .ok seed := by
  cases hseed : createWorkspaceSeed p files with
  | error e =>
    rw [hseed] at h
    cases h
  | ok seed => exact ⟨seed, rfl⟩

/-- A seed that was created holds its files in the order of their paths, an envelope holds its seed,
and the files of a seed that is accepted find room exactly if they are clear. -/
theorem workspace_seeds (p : Platform) :
    (∀ files seed, createWorkspaceSeed p files = .ok seed →
      parseWorkspaceSeed p seed = .ok (sortFiles files)) ∧
    (∀ seed blob, encodeWorkspaceBlob p seed = .ok blob → decodeWorkspaceBlob p blob = .ok seed) ∧
    ∀ seed files, parseWorkspaceSeed p seed = .ok files → (Placed p seed files ↔ Clear files) :=
  ⟨fun _ _ => parse_create, fun _ _ => decode_encode, fun _ _ => placed_iff⟩

/-- Safe integers in digits, the digest of no bytes at all, and one digest for all others. -/
def emptyFiles (digest : String) (h : isSha256 (ascii digest) = true) : Platform where
  number := decimalText Lib.maxSafeInteger
  sha256 bytes :=
    if bytes = [] then ascii "e3b0c44298fc1c149afbf4c8996fb92427ae41e4649b934ca495991b7852b855"
    else ascii digest
  number_safe := rfl
  sha256_hex bytes := by
    split
    · decide +kernel
    · exact h

def seedDigest : Platform :=
  emptyFiles "d8bb12f30e8b03a3b2b9ec40c33371a9ee378090e700b99245453bfc51ce1523" (by decide +kernel)

theorem workspace_seeds_twice :
    let files : List SeedFile := [⟨ascii "b/c", true, []⟩, ⟨ascii "a", false, []⟩]
    ∃ seed blob, createWorkspaceSeed seedDigest files = .ok seed ∧
      parseWorkspaceSeed seedDigest seed = .ok (sortFiles files) ∧
      encodeWorkspaceBlob seedDigest seed = .ok blob ∧ decodeWorkspaceBlob seedDigest blob = .ok seed ∧
      Placed seedDigest seed (sortFiles files) := by
  intro files
  obtain ⟨hcreate, hblob, hplaced⟩ := workspace_seeds seedDigest
  obtain ⟨seed, hseed⟩ := created_of_isSome seedDigest files (by decide +kernel)
  have hparse := hcreate files seed hseed
  have hencode : ∃ blob, encodeWorkspaceBlob seedDigest seed = .ok blob := by
    unfold encodeWorkspaceBlob validateWorkspacePayload
    rw [hparse]
    exact ⟨_, rfl⟩
  obtain ⟨blob, hencode⟩ := hencode
  refine ⟨seed, blob, hseed, hparse, hencode, hblob seed blob hencode, ?_⟩
  rw [hplaced seed _ hparse]
  have hbelow : ∀ f ∈ sortFiles files, ∀ g ∈ sortFiles files, below f.path g.path = false := by
    decide +kernel
  have hnames : ∀ f ∈ sortFiles files, ∀ g ∈ sortFiles files, f.path ≠ g.path →
      ¬fileNames f.path <+: fileNames g.path := by
    decide +kernel
  refine ⟨fun f hf g hg h => ?_, fun f hf g hg hne h => absurd h (hnames f hf g hg hne)⟩
  rw [hbelow f hf g hg] at h
  cases h

/-- `a/c` lies below `a`, but `a-b` stands between the two. -/
theorem workspace_seeds_collide :
    let files : List SeedFile := [⟨ascii "a", false, []⟩, ⟨ascii "a-b", false, []⟩,
      ⟨ascii "a/c", true, []⟩]
    ∃ seed, createWorkspaceSeed seedDigest files = .ok seed ∧
      parseWorkspaceSeed seedDigest seed = .ok files ∧ below (ascii "a") (ascii "a/c") = true ∧
      initializeWorkspaceSeed seedDigest {} seed = .ok none := by
  intro files
  obtain ⟨seed, hseed⟩ := created_of_isSome seedDigest files (by decide +kernel)
  have hparse := parse_create hseed
  have hsorted : sortFiles files = files := by decide +kernel
  rw [hsorted] at hparse
  refine ⟨seed, hseed, hparse, by decide +kernel, ?_⟩
  unfold initializeWorkspaceSeed
  rw [hparse]
  rfl

end Workspace
end PiCloud
