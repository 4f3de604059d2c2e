import Deno.Core.Split
import Deno.Core.Utf8

/-!
# Folders of node_modules

A package is kept below `node_modules/.deno`, in a folder that is named after it.
-/

namespace Deno.Npm

open Core List

/-- The texts of versions, and base32 for the names that are not in lower case. -/
structure FolderNames (Version : Type) where
  toLowercase : List Char → List Char
  mixedCasePackageNameEncode : List Char → List Char
  mixedCasePackageNameDecode : List Char → Option (List Char)
  display : Version → List Char
  parseFromNpm : List Char → Option Version
  decode_encode (name : List Char) : toLowercase name ≠ name →
    mixedCasePackageNameDecode (mixedCasePackageNameEncode name) = some name
  encode_alphabet (name : List Char) : '+' ∉ mixedCasePackageNameEncode name
  parse_display (version : Version) : parseFromNpm (display version) = some version
  parse_slash (text : List Char) : '/' ∈ text → parseFromNpm text = none
  display_alphabet (version : Version) : '@' ∉ display version ∧ '_' ∉ display version

structure FolderId (Version : Type) where
  name : List Char
  version : Version
  copyIndex : UInt8
  deriving DecidableEq

/-- What is known of a valid name. -/
structure FolderId.ValidName {Version : Type} (folderId : FolderId Version) : Prop where
  name : '+' ∉ folderId.name
  head : folderId.name.head? ≠ some '_'

def rsplitOnce (c : Char) (text : List Char) : Option (List Char × List Char) :=
  if c ∈ text then
    some ((text.reverse.dropWhile (· ≠ c)).tail.reverse, (text.reverse.takeWhile (· ≠ c)).reverse)
  else none

def parseU8 (text : List Char) : Option UInt8 :=
  let digits := if text.head? = some '+' then text.tail else text
  let n := Nat.ofDigitChars 10 digits 0
  if digits ≠ [] ∧ digits.all Char.isDigit ∧ n < 256 then some (.ofNat n) else none

def copyStr (copyIndex : UInt8) : List Char :=
  if copyIndex = 0 then [] else '_' :: Nat.toDigits 10 copyIndex.toNat

def splitCopyIndex (ending : List Char) : Option (List Char × UInt8) :=
  if '_' ∈ ending then
    (parseU8 (ending.dropWhile (· ≠ '_')).tail).map (ending.takeWhile (· ≠ '_'), ·)
  else some (ending, 0)

lemma rsplitOnce_append {c : Char} {before after : List Char} (h : c ∉ after) :
    rsplitOnce c (before ++ c :: after) = some (before, after) := by
  have hafter : c ∉ after.reverse := by simpa using h
  rw [rsplitOnce, if_pos (by simp), reverse_append, reverse_cons, append_assoc, singleton_append,
    dropWhile_ne_append hafter, takeWhile_ne_append hafter]
  simp

lemma copyStr_digits : ∀ n : UInt8, parseU8 (Nat.toDigits 10 n.toNat) = some n ∧
    '@' ∉ copyStr n ∧ '+' ∉ copyStr n ∧ '/' ∉ copyStr n := forall_byte (by decide +kernel)

lemma splitCopyIndex_append {version : List Char} (h : '_' ∉ version) (n : UInt8) :
    splitCopyIndex (version ++ copyStr n) = some (version, n) := by
  unfold copyStr
  split_ifs with hzero
  · rw [append_nil, splitCopyIndex, if_neg h, hzero]
  · rw [splitCopyIndex, if_pos (by simp), takeWhile_ne_append h, dropWhile_ne_append h, tail_cons,
      (copyStr_digits n).1]
    rfl

lemma map_eq_self_of_notMem {text : List Char} {c d : Char} (h : c ∉ text) :
    text.map (fun x => if x = c then d else x) = text :=
  (map_congr_left fun _ hx => if_neg (ne_of_mem_of_not_mem hx h)).trans (map_id text)

lemma map_replace {text : List Char} (h : '+' ∉ text) :
    (text.map fun c => if c = '/' then '+' else c).map (fun c => if c = '+' then '/' else c) =
      text := by
  rw [map_map]
  refine (map_congr_left fun c hc => ?_).trans (map_id text)
  have hne : c ≠ '+' := fun heq => h (heq ▸ hc)
  grind

namespace FolderNames

variable {Version : Type} (names : FolderNames Version) (folderId : FolderId Version)

def getPackageFolderIdFolderName : List Char :=
  let name :=
    if names.toLowercase folderId.name = folderId.name then folderId.name
    else '_' :: names.mixedCasePackageNameEncode folderId.name
  (name ++ '@' :: (names.display folderId.version ++ copyStr folderId.copyIndex)).map fun c =>
    if c = '/' then '+' else c

def getPackageFolderIdFromFolderName (folderName : List Char) : Option (FolderId Version) := do
  let (name, ending) ← rsplitOnce '@' (folderName.map fun c => if c = '+' then '/' else c)
  let name ← if name.head? = some '_' then names.mixedCasePackageNameDecode name.tail else some name
  let (rawVersion, copyIndex) ← splitCopyIndex ending
  let version ← names.parseFromNpm rawVersion
  return ⟨name, version, copyIndex⟩

variable {names folderId}

lemma slash_notMem_display (version : Version) : '/' ∉ names.display version := fun h => by
  simpa [names.parse_display] using names.parse_slash _ h

/-- The parts of a folder name. The name of the package is read back from the first of them. -/
lemma exists_folderName_eq (h : folderId.ValidName) : ∃ name : List Char, '+' ∉ name ∧
    (name.head? = some '_' ∧ names.mixedCasePackageNameDecode name.tail = some folderId.name ∨
      name.head? ≠ some '_' ∧ name = folderId.name) ∧
    names.getPackageFolderIdFolderName folderId = name.map (fun c => if c = '/' then '+' else c) ++
      '@' :: (names.display folderId.version ++ copyStr folderId.copyIndex) := by
  have hending : '/' ∉ names.display folderId.version ++ copyStr folderId.copyIndex := by
    simp [slash_notMem_display, copyStr_digits]
  rw [getPackageFolderIdFolderName, map_append, map_cons, map_eq_self_of_notMem hending]
  by_cases hlower : names.toLowercase folderId.name = folderId.name
  · rw [if_pos hlower]
    exact ⟨_, h.name, .inr ⟨h.head, rfl⟩, rfl⟩
  · rw [if_neg hlower]
    refine ⟨'_' :: _, ?_, .inl ⟨rfl, names.decode_encode _ hlower⟩, rfl⟩
    simpa using names.encode_alphabet folderId.name

/-- The version is read with slashes in the place of its plus signs. -/
lemma fromFolderName_folderName (h : folderId.ValidName) : names.getPackageFolderIdFromFolderName
    (names.getPackageFolderIdFolderName folderId) = (names.parseFromNpm
      ((names.display folderId.version).map fun c => if c = '+' then '/' else c)).map
        (⟨folderId.name, ·, folderId.copyIndex⟩) := by
  obtain ⟨name, hplus, hname, hfolder⟩ := @exists_folderName_eq _ names _ h
  obtain ⟨hat, hunderscore⟩ := names.display_alphabet folderId.version
  obtain ⟨-, hat', hplus', -⟩ := copyStr_digits folderId.copyIndex
  rw [getPackageFolderIdFromFolderName, hfolder, map_append, map_replace hplus, map_cons,
    map_append, map_eq_self_of_notMem hplus', if_neg (by decide), rsplitOnce_append]
  · simp only [Option.bind_eq_bind, Option.bind_some, Option.map_eq_bind]
    rw [splitCopyIndex_append (by grind)]
    rcases hname with ⟨hhead, hname⟩ | ⟨hhead, rfl⟩
    · rw [if_pos hhead, hname]
      rfl
    · rw [if_neg hhead]
      rfl
  · grind

/-- The folder name of a package with a valid name is decoded if and only if its version has no
build metadata. No two packages have the same folder name. -/
theorem folderNames_decode_iff (h : folderId.ValidName) :
    (names.getPackageFolderIdFromFolderName (names.getPackageFolderIdFolderName folderId) =
        some folderId ↔ '+' ∉ names.display folderId.version) ∧
      ∀ other : FolderId Version, other.ValidName → names.getPackageFolderIdFolderName folderId =
        names.getPackageFolderIdFolderName other → folderId = other := by
  constructor
  · rw [fromFolderName_folderName h]
    constructor
    · intro hsome hplus
      rw [names.parse_slash _ (mem_map.mpr ⟨'+', hplus, rfl⟩)] at hsome
      cases hsome
    · intro hplus
      rw [map_eq_self_of_notMem hplus, names.parse_display]
      rfl
  · intro other hother heq
    obtain ⟨name, hplus, hname, hfolder⟩ := @exists_folderName_eq _ names _ h
    obtain ⟨name', hplus', hname', hfolder'⟩ := @exists_folderName_eq _ names _ hother
    have hat (id : FolderId Version) : '@' ∉ names.display id.version ++ copyStr id.copyIndex := by
      simp [names.display_alphabet, copyStr_digits]
    have hsplit := congrArg (rsplitOnce '@') heq
    rw [hfolder, hfolder', rsplitOnce_append (hat _), rsplitOnce_append (hat _)] at hsplit
    obtain ⟨hmap, hending⟩ := Prod.mk.inj (Option.some.inj hsplit)
    have hversion := congrArg splitCopyIndex hending
    rw [splitCopyIndex_append (names.display_alphabet _).2,
      splitCopyIndex_append (names.display_alphabet _).2] at hversion
    obtain ⟨hdisplay, hcopy⟩ := Prod.mk.inj (Option.some.inj hversion)
    have hparse := congrArg names.parseFromNpm hdisplay
    rw [names.parse_display, names.parse_display] at hparse
    have hsame := congrArg (map fun c => if c = '+' then '/' else c) hmap
    rw [map_replace hplus, map_replace hplus'] at hsame
    have hnames : folderId.name = other.name := by grind
    cases folderId
    simp_all

def sample : FolderNames Bool where
  toLowercase := id
  mixedCasePackageNameEncode _ := []
  mixedCasePackageNameDecode := some
  display build := if build then "1.0.0+b".toList else "1.0.0".toList
  parseFromNpm text :=
    if text = "1.0.0+b".toList then some true
    else if text = "1.0.0".toList then some false else none
  decode_encode := by simp
  encode_alphabet := by simp
  parse_display := by decide
  parse_slash text h := by
    rw [if_neg (ne_of_mem_of_not_mem' h (by decide)), if_neg (ne_of_mem_of_not_mem' h (by decide))]
  display_alphabet := by decide

theorem folderNames_decode_scoped : sample.getPackageFolderIdFromFolderName
    "@types+foo@1.0.0_1".toList = some ⟨"@types/foo".toList, false, 1⟩ :=
  (@folderNames_decode_iff _ sample ⟨"@types/foo".toList, false, 1⟩
    ⟨by decide, by decide⟩).1.mpr (by decide)

/-- The plus sign comes back as a slash. -/
theorem folderNames_build : sample.getPackageFolderIdFromFolderName
    (sample.getPackageFolderIdFolderName ⟨['a'], true, 0⟩) = none := by
  decide

end FolderNames

end Deno.Npm
