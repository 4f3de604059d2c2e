import Deno.Core.FileTree
import Deno.Core.HashSet
import Deno.Error

/-!
# Extracting npm tarballs

The entries of an archive are unpacked one after the other below the output folder, each without
the first component of its path. The folder of an entry is created, and checked to lie in the
output folder, the first time it is met.
-/

namespace Deno

open Core

inductive EntryType where
  | regular
  | link
  | symlink
  | char
  | block
  | directory
  | fifo
  | continuous
  | gnuLongName
  | gnuLongLink
  | gnuSparse
  | xGlobalHeader
  | xHeader
  | other (byte : UInt8)
  deriving DecidableEq

/-- An entry of an archive; reading its path may fail. -/
structure Entry (β : Type) where
  path : Except AnyError Path
  entryType : EntryType
  contents : β

/-- The state of the loop of `extract_tarball`. -/
structure ExtractState (β : Type) where
  tree : FileTree β
  createdDirs : HashSet Path

variable {β : Type} [DecidableEq β]

/-- The result of an operation on the file system as the runtime reports it. -/
def ioResult {α : Type} : Except FsError α → Except AnyError α
  | .ok a => .ok a
  | .error e => .error (.io e.text)

def createDirAll (t : FileTree β) (cwd : Location) (p : Path) : Except AnyError Unit × FileTree β :=
  let r := t.createDirAll (p.origin cwd) p.comps
  (ioResult r.1, r.2)

variable (t : FileTree β) (cwd : Location)

def canonicalize (p : Path) : Except AnyError Location :=
  ioResult (t.resolve (p.origin cwd) p.comps)

/-- `Entry::unpack` of a regular file. -/
def unpack (p : Path) (contents : β) : Except AnyError Unit × FileTree β :=
  let r := t.writeFile (p.origin cwd) p.comps contents
  (ioResult r.1, r.2)

variable (outputFolder : Location)

/-- Where an entry goes: below the output folder, without the first component of its path. -/
def absolutePath (path : Path) : Path :=
  outputFolder.toPath.join (path.skip 1)

/-- The folder an entry needs; there is none if the entry would replace the root. -/
def dirPath (entryType : EntryType) (path : Path) : Option Path :=
  if entryType = .directory then some (absolutePath outputFolder path)
  else (absolutePath outputFolder path).parent

/-- Create a folder that was not met before, and check where it is. -/
def ensureDir (cwd outputFolder : Location) (s : ExtractState β) (dir : Path) :
    Except AnyError Unit × ExtractState β :=
  if dir ∈ s.createdDirs then (.ok (), s)
  else
    let createdDirs := s.createdDirs.insert dir
    match createDirAll s.tree cwd dir with
    | (.error e, tree) => (.error e, ⟨tree, createdDirs⟩)
    | (.ok (), tree) =>
      match canonicalize tree cwd dir with
      | .error e => (.error e, ⟨tree, createdDirs⟩)
      | .ok canonicalizedDir =>
        if canonicalizedDir.toPath.startsWith outputFolder.toPath then (.ok (), ⟨tree, createdDirs⟩)
        else
          (.error (.msg ("Extracted directory '" ++ canonicalizedDir.toPath.display ++
            "' of npm tarball was not in output directory.")), ⟨tree, createdDirs⟩)

/-- The body of the loop: one entry, as the archive yields it. -/
def extractEntry (cwd outputFolder : Location) (s : ExtractState β)
    (entry : Except AnyError (Entry β)) : Except AnyError Unit × ExtractState β :=
  match entry with
  | .error e => (.error e, s)
  | .ok entry =>
    match entry.path with
    | .error e => (.error e, s)
    | .ok path =>
      -- some tarballs contain a `pax_global_header`
      if entry.entryType = .xGlobalHeader then (.ok (), s)
      else
        match dirPath outputFolder entry.entryType path with
        | none => (.error (.panic "called `Option::unwrap()` on a `None` value"), s)
        | some dir =>
          match ensureDir cwd outputFolder s dir with
          | (.error e, s) => (.error e, s)
          | (.ok (), s) =>
            if entry.entryType = .regular then
              let r := unpack s.tree cwd (absolutePath outputFolder path) entry.contents
              (r.1, { s with tree := r.2 })
            -- links and everything else are ignored
            else (.ok (), s)

/-- The loop over the entries, left at the first error. -/
def extractEntries (cwd outputFolder : Location) :
    ExtractState β → List (Except AnyError (Entry β)) → Except AnyError Unit × ExtractState β
  | s, [] => (.ok (), s)
  | s, entry :: entries =>
    match extractEntry cwd outputFolder s entry with
    | (.error e, s) => (.error e, s)
    | (.ok (), s) => extractEntries cwd outputFolder s entries

/-- `extract_tarball`; the archive is given as what reading it yields. -/
def extractTarball
    (archive : Except AnyError (List (Except AnyError (Entry β)))) (outputFolder : Path) :
    Except AnyError Unit × FileTree β :=
  match createDirAll t cwd outputFolder with
  | (.error e, t) => (.error e, t)
  | (.ok (), t) =>
    match canonicalize t cwd outputFolder with
    | .error e => (.error e, t)
    | .ok outputFolder =>
      match archive with
      | .error e => (.error e, t)
      | .ok entries =>
        let r := extractEntries cwd outputFolder ⟨t, .empty⟩ entries
        (r.1, r.2.tree)

end Deno
