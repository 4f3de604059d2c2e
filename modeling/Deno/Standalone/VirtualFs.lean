import Deno.Core.BinarySearch
import Deno.Core.Bytes
import Deno.Core.Path
import Deno.Error
import Mathlib.Data.String.Basic

/-!
# The virtual file system of a compiled program

`deno compile` puts the files of a directory into the executable it writes. A builder collects a
tree of entries and the contents of the files, each content once. The compiled program looks
paths up in the tree and reads the contents from its own executable.
-/

namespace Deno

open Core

structure VirtualFile where
  name : String
  offset : ℕ
  len : ℕ
  deriving DecidableEq

structure VirtualSymlink where
  name : String
  destParts : List String
  deriving DecidableEq

inductive VfsEntry where
  | dir (name : String) (entries : List VfsEntry)
  | file (file : VirtualFile)
  | symlink (symlink : VirtualSymlink)

/-- A directory; its entries should be sorted by name. -/
structure VirtualDirectory where
  name : String
  entries : List VfsEntry

def VfsEntry.name : VfsEntry → String
  | .dir name _ => name
  | .file f => f.name
  | .symlink s => s.name

/-- What is told about an entry; the other fields are the same for all of them. -/
structure FsStat where
  isDirectory : Bool
  isFile : Bool
  isSymlink : Bool
  size : ℕ

def VfsEntry.asFsStat : VfsEntry → FsStat
  | .dir _ _ => ⟨true, false, false, 0⟩
  | .file f => ⟨false, true, false, f.len⟩
  | .symlink _ => ⟨false, false, true, 0⟩

/-- `binary_search_by` of the entries of a directory, by name. -/
def searchByName (entries : List VfsEntry) (name : String) : Except ℕ ℕ :=
  binarySearchBy (fun e => compare e.name name) entries

def componentNames (path : Path) : List String :=
  path.comps.map fun
    | .rootDir => "/"
    | c => c.text

/-! ### Building -/

/-- Walk down a directory, adding the directories that are missing, and update the last one. -/
def updateDir (update : List VfsEntry → Except AnyError (List VfsEntry)) :
    List String → List VfsEntry → Except AnyError (List VfsEntry)
  | [], entries => update entries
  | name :: names, entries =>
    match searchByName entries name with
    | .ok index =>
      match entries[index]? with
      | some (.dir dirName subEntries) => do
        let subEntries ← updateDir update names subEntries
        return entries.set index (.dir dirName subEntries)
      | _ => .error (.panic "internal error: entered unreachable code")
    | .error insertIndex => do
      let subEntries ← updateDir update names []
      return entries.insertIdx insertIndex (.dir name subEntries)

/-- Insert an entry into a directory that has none of its name. -/
def insertEntry (entry : VfsEntry) (entries : List VfsEntry) : Except AnyError (List VfsEntry) :=
  match searchByName entries entry.name with
  | .ok _ => .error (.panic "internal error: entered unreachable code")
  | .error insertIndex => .ok (entries.insertIdx insertIndex entry)

/-- The builder; `κ` is the type of the checksums. -/
structure VfsBuilder (κ : Type) where
  rootPath : Path
  rootDir : VirtualDirectory
  files : List Bytes
  currentOffset : ℕ
  fileOffsets : List (κ × ℕ)

namespace VfsBuilder

variable {κ : Type} [DecidableEq κ]

/-- A builder for a root that was made canonical. -/
def new (κ : Type) (rootPath : Path) : Except AnyError (VfsBuilder κ) := do
  let name ← unwrapOption rootPath.fileStem
  return {
    rootDir := ⟨name, []⟩
    rootPath := rootPath
    files := []
    currentOffset := 0
    fileOffsets := [] }

section

variable (self : VfsBuilder κ)

def pathRelativeRoot (path : Path) : Except AnyError Path :=
  match path.stripPrefix self.rootPath with
  | some p => .ok p
  | none => .error (.msg ("Failed to strip prefix '" ++ self.rootPath.display ++ "' from '" ++
      path.display ++ "'"))

/-- The directory at `path`, created if it is missing, is updated. -/
def updateDirAt (path : Path) (update : List VfsEntry → Except AnyError (List VfsEntry)) :
    Except AnyError (VfsBuilder κ) := do
  let path ← self.pathRelativeRoot path
  let entries ← updateDir update (componentNames path) self.rootDir.entries
  return { self with rootDir := { self.rootDir with entries := entries } }

def addDir (path : Path) : Except AnyError (VfsBuilder κ) :=
  self.updateDirAt path .ok

/-- The offset for a content: that of an earlier file with its checksum, or the current one. -/
def offsetFor (checksum : κ) : ℕ × List (κ × ℕ) :=
  match self.fileOffsets.lookup checksum with
  | some offset => (offset, self.fileOffsets)
  | none => (self.currentOffset, (checksum, self.currentOffset) :: self.fileOffsets)

def addFile (gen : Bytes → κ) (self : VfsBuilder κ) (path : Path) (data : Bytes) :
    Except AnyError (VfsBuilder κ) := do
  let (offset, fileOffsets) := self.offsetFor (gen data)
  let parent ← unwrapOption path.parent
  let name ← unwrapOption path.fileName
  let self ← self.updateDirAt parent (insertEntry (.file ⟨name, offset, data.length⟩))
  -- a new file goes to the list of files
  if self.currentOffset = offset then
    return { self with
      fileOffsets := fileOffsets
      files := self.files ++ [data]
      currentOffset := self.currentOffset + data.length }
  else return { self with fileOffsets := fileOffsets }

def addSymlink (path target : Path) : Except AnyError (VfsBuilder κ) := do
  let dest ← self.pathRelativeRoot target
  let parent ← unwrapOption path.parent
  let name ← unwrapOption path.fileName
  self.updateDirAt parent (insertEntry (.symlink ⟨name, componentNames dest⟩))

end

end VfsBuilder

inductive VfsOp where
  | addDir (path : Path)
  | addFile (path : Path) (data : Bytes)
  | addSymlink (path target : Path)

def VfsOp.path : VfsOp → Path
  | .addDir path => path
  | .addFile path _ => path
  | .addSymlink path _ => path

section

variable {κ : Type} [DecidableEq κ]

def VfsBuilder.apply (gen : Bytes → κ) (self : VfsBuilder κ) :
    VfsOp → Except AnyError (VfsBuilder κ)
  | .addDir path => self.addDir path
  | .addFile path data => self.addFile gen path data
  | .addSymlink path target => self.addSymlink path target

/-- A new builder after the given operations, all of which succeed. -/
def buildVfs (gen : Bytes → κ) (rootPath : Path) (ops : List VfsOp) :
    Except AnyError (VfsBuilder κ) := do
  let builder ← VfsBuilder.new κ rootPath
  ops.foldlM (VfsBuilder.apply gen) builder

end

/-! ### Looking up -/

def VirtualSymlink.resolveDestFromRoot (self : VirtualSymlink) (root : Path) : Path :=
  self.destParts.foldl (fun dest part => dest.join (.ofString part)) root

structure VfsRoot where
  dir : VirtualDirectory
  rootPath : Path
  startFileOffset : ℕ

def pathNotFound : AnyError := .custom "NotFound" "path not found"

/-- What a lookup finds: the resolved path with its entry, and the symlinks seen on the way. -/
structure FoundEntry where
  path : Path
  entry : VfsEntry
  seen : List Path

namespace VfsRoot

section

variable (self : VfsRoot)

/-- The directory to look the next component up in; a symlink is followed. -/
def dirOf (findEntry : Path → List Path → Except AnyError FoundEntry)
    (current : FoundEntry) : Except AnyError (Path × List VfsEntry × List Path) :=
  match current.entry with
  | .dir _ entries => .ok (current.path, entries, current.seen)
  | .symlink symlink => do
    let found ← findEntry (symlink.resolveDestFromRoot self.rootPath) current.seen
    match found.entry with
    | .dir _ entries => .ok (found.path, entries, found.seen)
    | _ => .error pathNotFound
  | .file _ => .error pathNotFound

def walk (self : VfsRoot) (findEntry : Path → List Path → Except AnyError FoundEntry) :
    List String → FoundEntry → Except AnyError FoundEntry
  | [], current => .ok current
  | component :: components, current => do
    let (path, entries, seen) ← self.dirOf findEntry current
    match searchByName entries component with
    | .ok index =>
      match entries[index]? with
      | some entry => self.walk findEntry components ⟨path.join (.ofString component), entry, seen⟩
      | none => .error (.panic "index out of bounds")
    | .error _ => .error pathNotFound

def findEntryNoFollowInner
    (findEntry : Path → List Path → Except AnyError FoundEntry) (path : Path) (seen : List Path) :
    Except AnyError FoundEntry :=
  match path.stripPrefix self.rootPath with
  | none => .error pathNotFound
  | some relativePath =>
    self.walk findEntry (componentNames relativePath)
      ⟨self.rootPath, .dir self.dir.name self.dir.entries, seen⟩

/-- The recursion of the lookup, on a stack of the given depth: a symlink below itself is followed
for ever. -/
def findEntryInner (self : VfsRoot) : ℕ → Path → List Path → Except AnyError FoundEntry
  | 0, _, _ => .error (.panic "stack overflow")
  | depth + 1, path, seen => do
    let found ← self.findEntryNoFollowInner (self.findEntryInner depth) path seen
    match found.entry with
    | .symlink symlink =>
      if path ∈ found.seen then .error (.custom "Error" "circular symlinks")
      else
        let dest := symlink.resolveDestFromRoot self.rootPath
        self.findEntryInner depth dest (path :: found.seen)
    | _ => .ok found

def findEntry (depth : ℕ) (path : Path) : Except AnyError (Path × VfsEntry) := do
  let found ← self.findEntryInner depth path []
  return (found.path, found.entry)

def findEntryNoFollow (depth : ℕ) (path : Path) : Except AnyError (Path × VfsEntry) := do
  let found ← self.findEntryNoFollowInner (self.findEntryInner depth) path []
  return (found.path, found.entry)

end

end VfsRoot

/-! ### Reading -/

/-- The most bytes one call of `read` transfers on Linux. -/
def readLimit : ℕ := 0x7ffff000

/-- The executable, by its bytes, with the directory in it. -/
structure FileBackedVfs where
  file : Bytes
  fsRoot : VfsRoot

namespace FileBackedVfs

variable (self : FileBackedVfs) (file : VirtualFile)

/-- Seek in the executable and read once into a buffer of the given length. The position is
computed with 64 bits, the operating system takes it as a signed number. -/
def readFile (pos bufLen : ℕ) : Except AnyError Bytes :=
  let start := (self.fsRoot.startFileOffset + file.offset + pos) % 2 ^ 64
  if start < 2 ^ 63 then .ok ((self.file.drop start).take (min bufLen readLimit))
  else .error (.io "Invalid argument (os error 22)")

/-- A buffer of zeros after a read into it, the number of bytes read being ignored. -/
def readIntoZeros (pos bufLen : ℕ) : Except AnyError Bytes := do
  let bytes ← self.readFile file pos bufLen
  return bytes ++ List.replicate (bufLen - bytes.length) 0

def readFileAll : Except AnyError Bytes :=
  self.readIntoZeros file 0 file.len

variable (depth : ℕ) (path : Path)

def fileEntry : Except AnyError VirtualFile := do
  let (_, entry) ← self.fsRoot.findEntry depth path
  match entry with
  | .dir _ _ => .error (.custom "Error" "path is a directory")
  | .symlink _ => .error (.panic "internal error: entered unreachable code")
  | .file file => .ok file

def lstat : Except AnyError FsStat := do
  let (_, entry) ← self.fsRoot.findEntryNoFollow depth path
  return entry.asFsStat

def stat : Except AnyError FsStat := do
  let (_, entry) ← self.fsRoot.findEntry depth path
  return entry.asFsStat

def canonicalize : Except AnyError Path := do
  let (path, _) ← self.fsRoot.findEntry depth path
  return path

end FileBackedVfs

inductive SeekFrom where
  | start (pos : UInt64)
  | «end» (offset : Int64)
  | current (offset : Int64)
  deriving DecidableEq

structure FileBackedVfsFile where
  file : VirtualFile
  pos : ℕ

namespace FileBackedVfsFile

def beforeBeginning : AnyError :=
  .custom "PermissionDenied"
    "An attempt was made to move the file pointer before the beginning of the file."

/-- `seek`; positions are numbers of 64 bits. -/
def seek (self : FileBackedVfsFile) : SeekFrom → Except AnyError ℕ × FileBackedVfsFile
  | .start pos => (.ok pos.toNat, { self with pos := pos.toNat })
  | .end offset =>
    if offset < 0 ∧ offset.toInt.natAbs > self.file.len then (.error beforeBeginning, self)
    else
      let pos :=
        if 0 ≤ offset then (self.file.len + (2 ^ 64 - offset.toInt.natAbs)) % 2 ^ 64
        else (self.file.len + offset.toInt.natAbs) % 2 ^ 64
      (.ok pos, { self with pos := pos })
  | .current offset =>
    if 0 ≤ offset then
      let pos := (self.pos + offset.toInt.natAbs) % 2 ^ 64
      (.ok pos, { self with pos := pos })
    else if offset.toInt.natAbs > self.pos then (.error beforeBeginning, self)
    else
      let pos := self.pos - offset.toInt.natAbs
      (.ok pos, { self with pos := pos })

variable (vfs : FileBackedVfs)

/-- `read_to_buf` with a buffer of the given length; the bytes that are read. -/
def readToBuf (self : FileBackedVfsFile) (bufLen : ℕ) : Except AnyError Bytes × FileBackedVfsFile :=
  (vfs.readFile self.file self.pos bufLen,
    { self with pos := min self.file.len ((self.pos + bufLen) % 2 ^ 64) })

def readToEnd (self : FileBackedVfsFile) : Except AnyError Bytes × FileBackedVfsFile :=
  let advanced := if self.pos < self.file.len then { self with pos := self.file.len } else self
  if self.pos > self.file.len then (.ok [], advanced)
  else (vfs.readIntoZeros self.file self.pos (self.file.len - self.pos), advanced)

end FileBackedVfsFile

def FileBackedVfs.openFile (self : FileBackedVfs) (depth : ℕ) (path : Path) :
    Except AnyError FileBackedVfsFile := do
  let file ← self.fileEntry depth path
  return ⟨file, 0⟩

end Deno
