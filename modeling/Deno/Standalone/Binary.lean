import Deno.Standalone.VirtualFs

/-!
# The layout of a compiled program

A compiled program is the original executable followed by an archive of modules, the metadata, the
directory of the virtual file system and the contents of its files. A trailer of fixed size at the
end says where these parts begin.
-/

namespace Deno

open Core List

def magicTrailer : Bytes := [100, 51, 110, 48, 108, 52, 110, 100]

def trailerSize : ℕ := 40

structure Trailer where
  eszipPos : ℕ
  metadataPos : ℕ
  npmVfsPos : ℕ
  npmFilesPos : ℕ
  deriving DecidableEq

def u64FromBytes (arr : Bytes) : Except AnyError ℕ :=
  if arr.length = 8 then .ok (ofBeBytes arr)
  else .error (.msg "Failed to convert the buffer into a fixed-size array")

namespace Trailer

def parse (trailer : Bytes) : Except AnyError (Option Trailer) :=
  let (magic, rest) := trailer.splitAt 8
  if magic ≠ magicTrailer then .ok none
  else do
    let (eszipPos, rest) := rest.splitAt 8
    let (metadataPos, rest) := rest.splitAt 8
    let (npmVfsPos, npmFilesPos) := rest.splitAt 8
    let eszipPos ← u64FromBytes eszipPos
    let metadataPos ← u64FromBytes metadataPos
    let npmVfsPos ← u64FromBytes npmVfsPos
    let npmFilesPos ← u64FromBytes npmFilesPos
    return some ⟨eszipPos, metadataPos, npmVfsPos, npmFilesPos⟩

variable (self : Trailer)

def metadataLen : ℕ := self.npmVfsPos - self.metadataPos

def npmVfsLen : ℕ := self.npmFilesPos - self.npmVfsPos

def asBytes : Bytes :=
  magicTrailer ++ beBytes 8 self.eszipPos ++ beBytes 8 self.metadataPos ++
    beBytes 8 self.npmVfsPos ++ beBytes 8 self.npmFilesPos

end Trailer

/-- The positions of the parts of a compiled program. -/
def Trailer.ofParts (originalBin eszip metadata npmVfs : Bytes) : Trailer where
  eszipPos := originalBin.length
  metadataPos := originalBin.length + eszip.length
  npmVfsPos := originalBin.length + eszip.length + metadata.length
  npmFilesPos := originalBin.length + eszip.length + metadata.length + npmVfs.length

/-- `write_binary_bytes`, the metadata and the archive already serialized. A file cannot grow
beyond what a signed number of 64 bits addresses. -/
def writeBinaryBytes (toJson : Option VirtualDirectory → Bytes)
    (originalBin metadata eszip : Bytes) (npmVfs : Option VirtualDirectory)
    (npmFiles : List Bytes) : Except AnyError Bytes :=
  let npmVfs := toJson npmVfs
  let written := originalBin ++ eszip ++ metadata ++ npmVfs ++ npmFiles.flatten ++
    (Trailer.ofParts originalBin eszip metadata npmVfs).asBytes
  if written.length < 2 ^ 63 then .ok written
  else .error (.io "File too large (os error 27)")

variable (file : Bytes)

/-- `read_exact` of the given number of bytes from a position. -/
def readExact (pos len : ℕ) : Except AnyError Bytes :=
  if pos + len ≤ file.length then .ok ((file.drop pos).take len)
  else .error (.custom "UnexpectedEof" "failed to fill whole buffer")

def readTrailer : Except AnyError (Option Trailer) := do
  if file.length < trailerSize then .error (.io "Invalid argument (os error 22)")
  else
    let trailer ← readExact file (file.length - trailerSize) trailerSize
    Trailer.parse trailer

/-- The metadata as `extract_standalone` takes them from the executable. -/
def readMetadata (trailer : Trailer) : Bytes :=
  (file.drop trailer.metadataPos).take trailer.metadataLen

/-- `load_npm_vfs` from the bytes of the current executable. -/
def loadNpmVfs (fromJson : Bytes → Except AnyError VirtualDirectory) (file : Bytes)
    (rootDirPath : Path) : Except AnyError FileBackedVfs := do
  let trailer ← readTrailer file
  let trailer ← unwrapOption trailer
  let vfsData ← readExact file trailer.npmVfsPos trailer.npmVfsLen
  let dir ← fromJson vfsData
  -- the name of the directory is that of the root
  let name ← unwrapOption rootDirPath.fileName
  return ⟨file, ⟨{ dir with name := name }, rootDirPath, trailer.npmFilesPos⟩⟩

/-! ### Reading the layout back -/

lemma u64FromBytes_beBytes {n : ℕ} (h : n < 2 ^ 64) : u64FromBytes (beBytes 8 n) = .ok n := by
  rw [u64FromBytes, if_pos (length_beBytes 8 n), ofBeBytes_beBytes h]

lemma Trailer.length_asBytes (t : Trailer) : t.asBytes.length = trailerSize := by
  simp [asBytes, magicTrailer, trailerSize]

lemma splitAt_append {a rest : Bytes} {n : ℕ} (h : a.length = n) :
    (a ++ rest).splitAt n = (a, rest) := by
  rw [splitAt_eq, take_left' h, drop_left' h]

theorem Trailer.parse_asBytes {t : Trailer} (heszip : t.eszipPos < 2 ^ 64)
    (hmetadata : t.metadataPos < 2 ^ 64) (hvfs : t.npmVfsPos < 2 ^ 64)
    (hfiles : t.npmFilesPos < 2 ^ 64) : parse t.asBytes = .ok (some t) := by
  have hmagic : magicTrailer.length = 8 := rfl
  simp only [parse, asBytes, append_assoc, splitAt_append hmagic,
    splitAt_append (length_beBytes 8 _), ne_eq, not_true_eq_false, if_false,
    u64FromBytes_beBytes heszip, u64FromBytes_beBytes hmetadata, u64FromBytes_beBytes hvfs,
    u64FromBytes_beBytes hfiles]
  rfl

lemma slice_of_eq_append {file : Bytes} (before bytes after : Bytes) {pos len : ℕ}
    (hfile : file = before ++ (bytes ++ after)) (hpos : pos = before.length)
    (hlen : len = bytes.length) : (file.drop pos).take len = bytes := by
  rw [hfile, hpos, hlen, drop_left, take_left]

lemma readExact_of_eq_append {file : Bytes} (before bytes after : Bytes) {pos len : ℕ}
    (hfile : file = before ++ (bytes ++ after)) (hpos : pos = before.length)
    (hlen : len = bytes.length) : readExact file pos len = .ok bytes := by
  rw [readExact, if_pos, slice_of_eq_append before bytes after hfile hpos hlen]
  rw [hfile, length_append, length_append]
  omega

variable {toJson : Option VirtualDirectory → Bytes} {npmVfs : Option VirtualDirectory}
  {npmFiles : List Bytes}

/-- The parts of a compiled program are found through its trailer. -/
theorem writeBinaryBytes_spec {originalBin metadata eszip exe : Bytes}
    (h : writeBinaryBytes toJson originalBin metadata eszip npmVfs npmFiles = .ok exe) :
    ∃ t, readTrailer exe = .ok (some t) ∧ readMetadata exe t = metadata ∧
      readExact exe t.npmVfsPos t.npmVfsLen = .ok (toJson npmVfs) ∧ exe.length < 2 ^ 63 ∧
      ∃ before, exe = before ++ npmFiles.flatten ++ t.asBytes ∧ before.length = t.npmFilesPos := by
  unfold writeBinaryBytes at h
  generalize toJson npmVfs = vfs at h ⊢
  dsimp only at h
  split_ifs at h with hsize
  obtain rfl := Except.ok.inj h
  have hlength : (originalBin ++ eszip ++ metadata ++ vfs ++ npmFiles.flatten ++
      (Trailer.ofParts originalBin eszip metadata vfs).asBytes).length =
      originalBin.length + eszip.length + metadata.length + vfs.length + npmFiles.flatten.length +
        trailerSize := by
    rw [length_append, Trailer.length_asBytes]
    simp only [length_append]
  have hparse : Trailer.parse (Trailer.ofParts originalBin eszip metadata vfs).asBytes =
      .ok (some (Trailer.ofParts originalBin eszip metadata vfs)) := by
    refine Trailer.parse_asBytes ?_ ?_ ?_ ?_ <;> simp only [Trailer.ofParts] <;> omega
  refine ⟨.ofParts originalBin eszip metadata vfs, ?_, ?_, ?_, hsize, _, rfl, ?_⟩
  · rw [readTrailer, if_neg (by omega)]
    have hbytes := Trailer.length_asBytes (.ofParts originalBin eszip metadata vfs)
    generalize (Trailer.ofParts originalBin eszip metadata vfs).asBytes = bytes at hparse hbytes ⊢
    rw [readExact_of_eq_append (originalBin ++ eszip ++ metadata ++ vfs ++ npmFiles.flatten) bytes
      []]
    · exact hparse
    · rw [append_nil]
    · rw [length_append, hbytes, Nat.add_sub_cancel]
    · exact hbytes.symm
  · generalize (Trailer.ofParts originalBin eszip metadata vfs).asBytes = bytes
    rw [readMetadata, slice_of_eq_append (originalBin ++ eszip) metadata
      (vfs ++ (npmFiles.flatten ++ bytes))]
    · simp
    · simp [Trailer.ofParts]
    · simp [Trailer.metadataLen, Trailer.ofParts]
  · generalize (Trailer.ofParts originalBin eszip metadata vfs).asBytes = bytes
    rw [readExact_of_eq_append (originalBin ++ eszip ++ metadata) vfs (npmFiles.flatten ++ bytes)]
    · simp
    · simp only [Trailer.ofParts, length_append]
    · simp [Trailer.npmVfsLen, Trailer.ofParts]
  · simp only [length_append, Trailer.ofParts]

/-- Writing succeeds if the parts are not too large together. -/
lemma exists_writeBinaryBytes {originalBin metadata eszip : Bytes}
    (h : originalBin.length + eszip.length + metadata.length + (toJson npmVfs).length +
      npmFiles.flatten.length + trailerSize < 2 ^ 63) :
    ∃ exe, writeBinaryBytes toJson originalBin metadata eszip npmVfs npmFiles = .ok exe := by
  refine ⟨_, if_pos ?_⟩
  rw [length_append, Trailer.length_asBytes]
  simpa only [length_append] using h

end Deno
