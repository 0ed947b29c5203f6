import PiCloud.Attachments.Base64
import PiCloud.Lib.JsonSyntax
import PiCloud.Lib.NameTree
import PiCloud.Lib.Paging
import PiCloud.Lib.Utf8

/-!
# Workspace.SeedFormat

Workspace seeds: the files of a new Workspace as one JSON document, `workspace-seed.ts`.

* `validRelativePath`: the paths that a seed may name.
* `parseWorkspaceSeed`, `createWorkspaceSeed`: the document read and written.
* `initializeWorkspaceSeed`: the files of a seed put into a directory.
* `encodeWorkspaceBlob`, `decodeWorkspaceBlob`: a seed in its envelope.
-/

namespace PiCloud
namespace Workspace

open Lib Protocol Attachments

def maxWorkspaceSeedFiles : Nat := 512

def maxWorkspaceSeedFileBytes : Nat := 512 * 1024

def maxWorkspaceSeedPathBytes : Nat := 512

def maxWorkspaceSeedBytes : Nat := 2 * 1024 * 1024

def maxWorkspaceBlobBytes : Nat := 32 * 1024 * 1024

/-- Numbers as text, and the digest in hexadecimal digits. -/
structure Platform where
  number : NumberText
  sha256 : Bytes → JsString
  number_safe : number.safe = Lib.maxSafeInteger
  sha256_hex : ∀ bytes, isSha256 (sha256 bytes) = true

/-! ## Paths -/

/-- `/` -/
def slash : CodeUnit := 0x2F

/-- One segment of a path more; a path that is not absolute may lead upwards. -/
def normalizePart (absolute : Bool) (parts : List JsString) (part : JsString) : List JsString :=
  if part = [] ∨ part = ascii "." then parts
  else if part = ascii ".." then
    if parts.getLast?.any (· ≠ ascii "..") then parts.dropLast
    else if absolute then parts
    else parts ++ [part]
  else parts ++ [part]

/-- `posix.normalize` -/
def normalize (path : JsString) : JsString :=
  let absolute := path.head? = some slash
  let trailing := path.getLast? = some slash
  let joined := [slash].intercalate ((path.splitOn slash).foldl (normalizePart absolute) [])
  if path = [] then ascii "."
  else if joined = [] then
    if absolute then [slash] else if trailing then ascii "./" else ascii "."
  else (if absolute then [slash] else []) ++ joined ++ (if trailing then [slash] else [])

def validRelativePath (value : JsString) : Bool :=
  if value = [] ∨ value.head? = some slash ∨ value.contains 0x5C ∨
      value.any (fun u => u ≤ 0x1F || u = 0x7F) ∨ maxWorkspaceSeedPathBytes < utf8Bytes value ∨
      normalize value ≠ value then false
  else
    let segments := value.splitOn slash
    segments.all (fun segment => segment ≠ [] && segment ≠ ascii "." && segment ≠ ascii "..") &&
      segments.head? ≠ some (ascii ".git-credentials")

/-- What `comparePaths` goes by: the code units. -/
def pathOrder (path : JsString) : List Nat := path.map UInt16.toNat

/-- `path.startsWith(directory + "/")` -/
def below (directory path : JsString) : Bool := (directory ++ [slash]).isPrefixOf path

def collides : List JsString → Bool
  | current :: next :: rest => below current next || collides (next :: rest)
  | _ => false

/-! ## Reading -/

/-- `WorkspaceSeedFileContent` -/
structure SeedFile where
  path : JsString
  executable : Bool
  content : Bytes
deriving DecidableEq

def sortFiles (files : List SeedFile) : List SeedFile := sortBy (fun f => pathOrder f.path) files

def hasExactKeys (m : Members) (keys : List String) : Bool :=
  sortBy pathOrder (m.map Prod.fst) = sortBy pathOrder (keys.map ascii)

def decodeCanonicalBase64 (value : JsString) : Except String Bytes :=
  if isBase64Text value = false ∨ toBase64 (fromBase64 value) ≠ value then
    throw "Workspace file content is not canonical base64"
  else return fromBase64 value

variable (p : Platform)

/-- One entry of a document, `paths` being those of the entries before it. -/
def restoreFile (paths : List JsString) (candidate : Json) : Except String SeedFile :=
  let c := some candidate
  match candidate, at? c "path", at? c "executable", at? c "sizeBytes", at? c "sha256",
    at? c "content" with
  | .obj m, some (.str path), some (.bool executable), some (.num sizeBytes), some (.str sha256),
      some (.str content) =>
    if hasExactKeys m ["path", "executable", "sizeBytes", "sha256", "content"] = false ∨
        validRelativePath path = false ∨ safeInteger 0 (some (.num sizeBytes)) = false ∨
        maxWorkspaceSeedFileBytes < sizeBytes.num ∨ isSha256 sha256 = false ∨
        paths.contains path then
      throw "Workspace file entry is invalid"
    else do
      let bytes ← decodeCanonicalBase64 content
      if (bytes.length : Rat) ≠ sizeBytes ∨ p.sha256 bytes ≠ sha256 then
        throw "Workspace file content does not match its metadata"
      else return { path, executable, content := bytes }
  | _, _, _, _, _, _ => throw "Workspace file entry is invalid"

def restoreFiles (paths : List JsString) : List Json → Except String (List SeedFile)
  | [] => return []
  | candidate :: candidates => do
    let file ← restoreFile p paths candidate
    let files ← restoreFiles (file.path :: paths) candidates
    return file :: files

/-- The entries of a document. -/
def seedEntries (parsed : Json) : Option (List Json) :=
  match parsed, at? (some parsed) "files" with
  | .obj m, some (.arr files) =>
    if hasExactKeys m ["format", "files"] &&
        isText (at? (some parsed) "format") "pi-cloud.workspace-seed.v1" &&
        files.length ≤ maxWorkspaceSeedFiles then some files
    else none
  | _, _ => none

def parseWorkspaceSeed (seed : Bytes) : Except String (List SeedFile) :=
  if seed.length < 1 ∨ maxWorkspaceSeedBytes < seed.length then
    throw "Workspace seed is outside its byte limit"
  else
    match (decodeFatal seed).bind (parse p.number) with
    | none => throw "Workspace seed is not valid UTF-8 JSON"
    | some parsed =>
      match seedEntries parsed with
      | none => throw "Workspace seed shape is invalid"
      | some candidates => do
        let restored ← restoreFiles p [] candidates
        if collides ((sortFiles restored).map SeedFile.path) then
          throw "Workspace seed contains a file/directory collision"
        else return sortFiles restored

/-- `validateWorkspacePayload` -/
def validateWorkspacePayload (seed : Bytes) : Except String Unit :=
  (parseWorkspaceSeed p seed).map fun _ => ()

/-! ## Writing -/

/-- `WorkspaceSeedFile` -/
structure SeedEntry where
  path : JsString
  executable : Bool
  sizeBytes : Nat
  sha256 : JsString
  content : JsString

def SeedEntry.json (e : SeedEntry) : Json :=
  .obj (record [
    ("path", some (.str e.path)),
    ("executable", some (.bool e.executable)),
    ("sizeBytes", some (.num e.sizeBytes)),
    ("sha256", some (.str e.sha256)),
    ("content", some (.str e.content))])

def seedDocument (entries : List SeedEntry) : Json :=
  .obj (record [
    ("format", some (.str (ascii "pi-cloud.workspace-seed.v1"))),
    ("files", some (.arr (entries.map SeedEntry.json)))])

/-- One file as an entry, `paths` being those of the files before it. -/
def seedEntry (paths : List JsString) (file : SeedFile) : Except String SeedEntry :=
  if validRelativePath file.path = false ∨ maxWorkspaceSeedFileBytes < file.content.length ∨
      paths.contains file.path then
    throw "Workspace file entry is invalid"
  else
    return { path := file.path
             executable := file.executable
             sizeBytes := file.content.length
             sha256 := p.sha256 file.content
             content := toBase64 file.content }

def makeEntries (paths : List JsString) : List SeedFile → Except String (List SeedEntry)
  | [] => return []
  | file :: files => do
    let entry ← seedEntry p paths file
    let entries ← makeEntries (file.path :: paths) files
    return entry :: entries

/-- The document of sorted entries, with a line break behind it. -/
def encodeEntries (entries : List SeedEntry) : Except String Bytes :=
  if collides (entries.map SeedEntry.path) then
    throw "Workspace seed contains a file/directory collision"
  else
    let encoded := utf8 (stringify p.number (seedDocument entries) ++ [0x0A])
    if maxWorkspaceSeedBytes < encoded.length then
      throw "Workspace seed is outside its byte limit"
    else do
      validateWorkspacePayload p encoded
      return encoded

def createWorkspaceSeed (files : List SeedFile) : Except String Bytes :=
  if maxWorkspaceSeedFiles < files.length then
    throw "Workspace contains too many files for this seed format"
  else do
    let entries ← makeEntries p [] files
    encodeEntries p (sortBy (fun e => pathOrder e.path) entries)

/-! ## Envelopes -/

/-- `WorkspaceBlob`, the encoding being `base64` -/
structure WorkspaceBlob where
  sha256 : JsString
  sizeBytes : Nat
  data : JsString

def encodeWorkspaceBlob (seed : Bytes) : Except String WorkspaceBlob := do
  validateWorkspacePayload p seed
  return { sha256 := p.sha256 seed, sizeBytes := seed.length, data := toBase64 seed }

def decodeWorkspaceBlob (blob : WorkspaceBlob) : Except String Bytes := do
  let bytes ← decodeCanonicalBase64 blob.data
  if bytes.length < 1 ∨ maxWorkspaceBlobBytes < bytes.length ∨ bytes.length ≠ blob.sizeBytes ∨
      p.sha256 bytes ≠ blob.sha256 then
    throw "Workspace blob does not match its envelope"
  else
    validateWorkspacePayload p bytes
    return bytes

/-! ## Files -/

/-- A file as it lies in the Workspace: its mode and its bytes. -/
abbrev StoredFile := Bool × Bytes

abbrev WorkspaceTree := NameTree Bytes StoredFile

def fileNames (path : JsString) : List Bytes := (path.splitOn slash).map utf8

/-- The temporary file has a name of its own and is removed again, so what is left of an attempt is
what `mkdir` and `link` do. A destination that exists is left alone. Gives the tree afterwards and
the files that were created; none where a directory cannot be made. -/
def initializeWorkspaceSeed (tree : WorkspaceTree) (seed : Bytes) :
    Except String (Option (WorkspaceTree × List SeedFile)) := do
  let files ← parseWorkspaceSeed p seed
  return tree.fill (fun f : SeedFile => fileNames f.path) (fun f => (f.executable, f.content)) files

end Workspace
end PiCloud
