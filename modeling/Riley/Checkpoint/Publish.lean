import Riley.Library.FileTree
import Riley.Library.Interleaving
import Riley.Library.Substrings
import Riley.Machine

/-!
Preparing a checkpoint. A plan lists the files of a checkpoint with their lengths and digests. A
directory is reserved, every file is copied into its stage and checked, the loader verifies the
stage, and the files are linked into the directory, the manifest last. What is performed on the
file system is performed operation by operation, and each may fail. Paths are those of Unix, and
names are text.
-/

namespace Riley.Publication

open FileTree (Path Node)
open Interleaving (Program)
open Interleaving.Program (fail fromExcept forEach onError)

inductive Error
  /-- An error of the operating system, of the transport or of the loader. -/
  | failed
  | invalid (message : String)
  deriving DecidableEq, Repr

section Plan

def MAX_PLAN_BYTES : Nat := 16 * 1024 * 1024
def STAGING : String := ".riley-staging"
def TRANSPORT : String := ".riley-transport"
def PROVENANCE_FILENAME : String := "riley-checkpoint.json"

structure ProvenanceFile where
  path : String
  byteLen : Nat
  sha256 : String
  deriving DecidableEq, Repr

/-- What a manifest says; its files are a map by their paths. -/
structure Provenance where
  sourceModel : String
  sourceRevision : String
  files : List ProvenanceFile
  distinct : (files.map ProvenanceFile.path).Nodup

def safeSegment (value : List Char) : Bool :=
  value.head?.any Char.isAlphanum && (Substrings.find ['.', '.'] value).isNone &&
    value.all fun c => c.isAlphanum || ['.', '_', '-'].contains c

def lowerHex (value : List Char) (length : Nat) : Bool :=
  value.length == length && value.all fun c => c.isDigit || ('a' ≤ c && c ≤ 'f')

def allowedPayload (name : String) : Bool :=
  ["config.json", "chat_template.jinja", "generation_config.json", "tokenizer.json",
      "tokenizer_config.json", "model.safetensors", "model.safetensors.index.json"].contains name ||
    (safeSegment name.toList && "model-".toList.isPrefixOf name.toList &&
      ".safetensors".toList.isSuffixOf name.toList)

def checkFile (entry : ProvenanceFile) : Except Error Unit :=
  if !allowedPayload entry.path then
    .error (.invalid s!"unsupported checkpoint filename: {entry.path}")
  else if entry.byteLen = 0 ∨ entry.byteLen = u64Max then
    .error (.invalid "payload length must be positive and bounded")
  else .ok ()

def checkFiles : List ProvenanceFile → Except Error Unit
  | [] => .ok ()
  | entry :: rest => do
      checkFile entry
      checkFiles rest

def checkRequired (files : List ProvenanceFile) : List String → Except Error Unit
  | [] => .ok ()
  | required :: rest =>
      if !(files.map ProvenanceFile.path).contains required then
        .error (.invalid s!"missing required allowlist entry: {required}")
      else checkRequired files rest

def checkLayout (paths : List String) : Except Error Unit :=
  if paths.contains "model.safetensors" = paths.contains "model.safetensors.index.json" then
    .error (.invalid "select exactly one single-file or indexed weight layout")
  else .ok ()

def checkProvenance (provenance : Provenance) : Except Error Unit :=
  let parts := Substrings.split ['/'] provenance.sourceModel.toList
  if !lowerHex provenance.sourceRevision.toList 40 then
    .error (.invalid "source_revision must be a full lowercase 40-hex commit")
  else if parts.length ≠ 2 ∨ parts.any fun part => !safeSegment part then
    .error (.invalid "source_model must be a safe owner/model identifier")
  else do
    checkFiles provenance.files
    checkRequired provenance.files ["config.json", "tokenizer.json"]
    checkLayout (provenance.files.map ProvenanceFile.path)

/-- What is not modelled of the loader: how it reads a manifest, the digest of a file in lowercase
hexadecimal, and whether it loads a directory under the limits of a manifest. -/
structure Loader where
  parse : List UInt8 → Option Provenance
  hexDigest : List UInt8 → String
  load : (Path → Option Node) → Provenance → Bool

/-- A manifest that was read and checked. -/
structure Plan (loader : Loader) where
  bytes : List UInt8
  provenance : Provenance
  small : bytes.length ≤ MAX_PLAN_BYTES
  parsed : loader.parse bytes = some provenance
  checked : checkProvenance provenance = .ok ()

def Plan.files {loader : Loader} (plan : Plan loader) : List ProvenanceFile := plan.provenance.files

def Plan.fromBytes (loader : Loader) (bytes : List UInt8) : Except Error (Plan loader) :=
  if hsmall : bytes.length ≤ MAX_PLAN_BYTES then
    match hparsed : loader.parse bytes with
    | none => .error .failed
    | some provenance =>
        match hchecked : checkProvenance provenance with
        | .error error => .error error
        | .ok () => .ok ⟨bytes, provenance, hsmall, hparsed, hchecked⟩
  else .error (.invalid "manifest exceeds preparation size limit")

end Plan

section Operations

inductive FileType
  | directory
  | file
  | symlink
  deriving DecidableEq, Repr

inductive Component
  | rootDir
  | curDir
  | parentDir
  | normal (name : String)
  deriving DecidableEq, Repr

/-- What is asked of the file system, of the transport and of the loader. -/
inductive Op
  | symlinkMetadata (path : Path)
  | openFile (path : Path)
  /-- At most so many of the next bytes of an opened file. -/
  | read (path : Path) (limit : Nat)
  /-- The bytes of an opened file to its end, but at most so many. -/
  | readToEnd (path : Path) (limit : Nat)
  | createFile (path : Path)
  | writeAll (path : Path) (bytes : List UInt8)
  | syncAll (path : Path)
  | createDirectory (path : Path)
  | syncDirectory (path : Path)
  | pathExists (path : Path)
  | removeDirAll (path : Path)
  | hardLink (original link : Path)
  /-- Where the bytes of a file are to be copied from. -/
  | fetch (root : Path) (entry : ProvenanceFile)
  | load (root : Path) (provenance : Provenance)

abbrev Answer : Op → Type
  | .symlinkMetadata _ => FileType
  | .openFile _ => FileType × Nat
  | .read _ _ => List UInt8
  | .readToEnd _ _ => List UInt8
  | .pathExists _ => Bool
  | .fetch _ _ => List Component
  | _ => Unit

/-- A program of the preparation. -/
abbrev Preparation (α : Type) := Program Op Answer Error α

def call (op : Op) : Preparation (Answer op) := Program.call op

def invalid {α : Type} (message : String) : Preparation α := fail (.invalid message)

def components (path : Path) : List Component := .rootDir :: path.map .normal

def push (current : Path) : Component → Path
  | .rootDir => []
  | .normal name => current ++ [name]
  | .curDir | .parentDir => current

/-- The loop of `checked_path`. -/
def checkedPathFrom : Path → List Component → Preparation Path
  | current, [] => pure current
  | _, .parentDir :: _ => invalid "parent traversal is not allowed"
  | current, .curDir :: rest => checkedPathFrom current rest
  | current, component :: rest => do
      let fileType : FileType ← call (.symlinkMetadata (push current component))
      if fileType = .symlink then invalid "symlinks are not allowed in checkpoint paths"
      else checkedPathFrom (push current component) rest

def absolute (workingDirectory : Path) (path : List Component) : List Component :=
  if path.head? = some .rootDir then path else components workingDirectory ++ path

def checkedPath (workingDirectory : Path) (path : List Component) : Preparation Path :=
  checkedPathFrom [] (absolute workingDirectory path)

def checkedDirectory (workingDirectory : Path) (path : List Component) : Preparation Path := do
  let path ← checkedPath workingDirectory path
  let fileType : FileType ← call (.symlinkMetadata path)
  if fileType ≠ .directory then invalid "expected a directory" else pure path

/-- An opened file, by its path, and the length in its metadata. -/
structure OpenFile where
  path : Path
  length : Nat

def regularFile (workingDirectory : Path) (path : List Component) : Preparation OpenFile := do
  let path ← checkedPath workingDirectory path
  let fileType : FileType ← call (.symlinkMetadata path)
  if fileType ≠ .file then invalid "expected a regular file"
  else do
    let metadata : FileType × Nat ← call (.openFile path)
    if metadata.1 ≠ .file then invalid "opened object is not a regular file"
    else pure ⟨path, metadata.2⟩

end Operations

section Copying

def BUFFER_BYTES : Nat := 1024 * 1024

/-- The loop of `copy_verified`, and what it has hashed and counted. -/
def copyFrom (source destination : Path) (assertion : ProvenanceFile) (hashed : List UInt8)
    (count : Nat) : Preparation (List UInt8 × Nat) := do
  let buffer : List UInt8 ←
    call (.read source (min BUFFER_BYTES (assertion.byteLen + 1 - count)))
  if _hlength : buffer.length = 0 then pure (hashed, count)
  else if _hgrew : assertion.byteLen < count + buffer.length then
    invalid "payload grew during materialization"
  else do
    call (.writeAll destination buffer)
    copyFrom source destination assertion (hashed ++ buffer) (count + buffer.length)
termination_by assertion.byteLen - count

def copyVerified (loader : Loader) (workingDirectory : Path) (source : List Component)
    (destination : Path) (assertion : ProvenanceFile) : Preparation Unit := do
  let input ← regularFile workingDirectory source
  if input.length ≠ assertion.byteLen then invalid s!"size mismatch: {assertion.path}"
  else do
    call (.createFile destination)
    let (hashed, count) ← copyFrom input.path destination assertion [] 0
    if count ≠ assertion.byteLen ∨ loader.hexDigest hashed ≠ assertion.sha256 then
      invalid s!"checksum/length mismatch: {assertion.path}"
    else call (.syncAll destination)

end Copying

section Verifying

def Plan.read (loader : Loader) (workingDirectory : Path) (path : Path) :
    Preparation (Plan loader) := do
  let input ← regularFile workingDirectory (components path)
  if MAX_PLAN_BYTES < input.length then invalid "manifest exceeds preparation size limit"
  else do
    let bytes : List UInt8 ← call (.readToEnd input.path (MAX_PLAN_BYTES + 1))
    fromExcept (Plan.fromBytes loader bytes)

def verify (loader : Loader) (workingDirectory : Path) (root : Path) : Preparation Unit := do
  let _ ← checkedDirectory workingDirectory (components root)
  let plan ← Plan.read loader workingDirectory (root ++ [PROVENANCE_FILENAME])
  forEach (fun entry => do
    let _ ← regularFile workingDirectory (components (root ++ [entry.path]))
    pure ()) plan.files
  call (.load root plan.provenance)

end Verifying

section Publishing

structure Transaction where
  root : Path
  stage : Path

def fileName (destination : List Component) : Option String :=
  match destination.getLast? with
  | some (.normal name) => some name
  | _ => none

def parentOf (destination : List Component) : List Component :=
  if destination.dropLast = [] then [.curDir] else destination.dropLast

/-- What dropping a transaction does that is not published. -/
def Transaction.rollBack (root : Path) : Preparation Unit := call (.removeDirAll root)

def Transaction.reserve (workingDirectory : Path) (destination : List Component) :
    Preparation Transaction := do
  match fileName destination with
  | none => invalid "destination needs a new directory name"
  | some name =>
      if destination.contains .parentDir then
        invalid "destination parent traversal is not allowed"
      else do
        let parent ← checkedDirectory workingDirectory (parentOf destination)
        let root := parent ++ [name]
        call (.createDirectory root)
        onError (Transaction.rollBack root) do
          call (.createDirectory (root ++ [STAGING]))
          call (.syncDirectory parent)
          pure ⟨root, root ++ [STAGING]⟩

/-- One file of a plan, copied into the stage. -/
def stageFile (loader : Loader) (workingDirectory : Path) (transaction : Transaction)
    (entry : ProvenanceFile) : Preparation Unit := do
  let source : List Component ← call (.fetch transaction.root entry)
  copyVerified loader workingDirectory source (transaction.stage ++ [entry.path]) entry

/-- The transport has no part in what is published. -/
def clearTransport (transport : Path) : Preparation Unit := do
  let found : Bool ← call (.pathExists transport)
  if found then call (.removeDirAll transport) else pure ()

/-- `publish_with` up to the link of the manifest. -/
def commit {loader : Loader} (plan : Plan loader) (workingDirectory : Path)
    (transaction : Transaction) : Preparation Unit := do
  forEach (stageFile loader workingDirectory transaction) plan.files
  let manifest := transaction.stage ++ [PROVENANCE_FILENAME]
  call (.createFile manifest)
  call (.writeAll manifest plan.bytes)
  call (.syncAll manifest)
  verify loader workingDirectory transaction.stage
  clearTransport (transaction.root ++ [TRANSPORT])
  forEach (fun entry =>
    call (.hardLink (transaction.stage ++ [entry.path]) (transaction.root ++ [entry.path])))
    plan.files
  call (.syncDirectory transaction.root)
  call (.hardLink manifest (transaction.root ++ [PROVENANCE_FILENAME]))

/-- A transaction is rolled back where it fails before its manifest is linked, and never after. -/
def publishWith {loader : Loader} (plan : Plan loader) (workingDirectory : Path)
    (destination : List Component) : Preparation Unit := do
  let transaction ← Transaction.reserve workingDirectory destination
  onError (Transaction.rollBack transaction.root) (commit plan workingDirectory transaction)
  call (.syncDirectory transaction.root)
  call (.removeDirAll transaction.stage)
  call (.syncDirectory transaction.root)

end Publishing

end Riley.Publication
