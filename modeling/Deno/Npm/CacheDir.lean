import Deno.Util.SafeDirname
import Mathlib.Data.List.Forall2

/-!
# The cache of npm packages

The packages of a registry are kept below a folder that is named after the URL of the registry.
-/

namespace Deno.Npm

open Core SafeDirname List

/-! ### Folders -/

/-- A name and a version. The text of a version does not start with a separator. -/
structure PackageNv where
  name : List Char
  version : List Char
  relative : version.head? ≠ some '/'

structure NpmPackageCacheFolderId where
  nv : PackageNv
  copyIndex : ℕ

/-- The directory is absolute. `toLowercase` and `mixedCasePackageNameEncode` work on the names of
packages. -/
structure NpmCacheDir where
  rootDir : Path
  absolute : rootDir.isAbsolute = true
  toLowercase : List Char → List Char
  mixedCasePackageNameEncode : List Char → List Char

namespace NpmCacheDir

variable (dir : NpmCacheDir)

def registryFolder (registryUrl : Url) : Path :=
  dir.rootDir.join (rootUrlToSafeLocalDirname registryUrl)

def packageNameFolder (name : List Char) (registryUrl : Url) : Path :=
  if dir.toLowercase name ≠ name then
    (dir.registryFolder registryUrl).join
      (.ofString (String.ofList ('_' :: dir.mixedCasePackageNameEncode name)))
  else
    (name.splitOn '/').foldl (fun result part => result.join (.ofString (String.ofList part)))
      (dir.registryFolder registryUrl)

def packageFolderForNameAndVersion (package : PackageNv) (registryUrl : Url) : Path :=
  (dir.packageNameFolder package.name registryUrl).join (.ofString (String.ofList package.version))

def packageFolderForId (folderId : NpmPackageCacheFolderId) (registryUrl : Url) : Path :=
  if folderId.copyIndex = 0 then dir.packageFolderForNameAndVersion folderId.nv registryUrl
  else
    (dir.packageNameFolder folderId.nv.name registryUrl).join (.ofString (String.ofList
      (folderId.nv.version ++ '_' :: Nat.toDigits 10 folderId.copyIndex)))

/-! ### Below the folder of a registry -/

variable {p : Path}

lemma comps_join_text {text : List Char} (hp : p.isEmpty = false) (htext : text.head? ≠ some '/') :
    (p.join (.ofString (String.ofList text))).comps = p.comps ++ Path.components text := by
  have hrelative : (Path.ofString (String.ofList text)).isAbsolute = false := by
    rw [← Bool.not_eq_true]
    intro habsolute
    obtain ⟨rest, rfl⟩ := Path.exists_of_isAbsolute_ofString habsolute
    exact htext rfl
  rw [Path.join_comps hrelative hp, Path.interior_ofString hrelative]

lemma isEmpty_of_comps {comps : List Component} {q : Path} (hp : p.isEmpty = false)
    (h : q.comps = p.comps ++ comps) : q.isEmpty = false := by
  rw [Path.isEmpty, ← Bool.not_eq_true, List.isEmpty_iff] at hp ⊢
  rw [h]
  simp [hp]

lemma comps_foldl_text {parts : List (List Char)} (hparts : ∀ part ∈ parts, '/' ∉ part)
    (hp : p.isEmpty = false) :
    (parts.foldl (fun result part => result.join (.ofString (String.ofList part))) p).comps =
      p.comps ++ parts.flatMap Path.components := by
  induction parts generalizing p with
  | nil => simp
  | cons part parts ih =>
    rw [forall_mem_cons] at hparts
    have hhead : part.head? ≠ some '/' := fun h => hparts.1 (mem_of_head? h)
    have hjoin := comps_join_text hp hhead
    rw [foldl_cons, ih hparts.2 (isEmpty_of_comps hp hjoin), hjoin, flatMap_cons, append_assoc]

variable (folderId : NpmPackageCacheFolderId)

/-- The components of the folder of a package below that of its registry. -/
def belowRegistry : List Component :=
  (if dir.toLowercase folderId.nv.name ≠ folderId.nv.name then
      Path.components ('_' :: dir.mixedCasePackageNameEncode folderId.nv.name)
    else (folderId.nv.name.splitOn '/').flatMap Path.components) ++
  Path.components (if folderId.copyIndex = 0 then folderId.nv.version
    else folderId.nv.version ++ '_' :: Nat.toDigits 10 folderId.copyIndex)

lemma isEmpty_of_isAbsolute (h : p.isAbsolute = true) : p.isEmpty = false := by
  rw [Path.isAbsolute] at h
  rw [Path.isEmpty, ← Bool.not_eq_true, List.isEmpty_iff]
  intro hnil
  rw [hnil] at h
  cases h

lemma isEmpty_registryFolder (url : Url) : (dir.registryFolder url).isEmpty = false := by
  have hroot := isEmpty_of_isAbsolute dir.absolute
  by_cases habsolute : (rootUrlToSafeLocalDirname url).isAbsolute = true
  · rw [registryFolder, Path.join, if_pos (.inl habsolute)]
    exact isEmpty_of_isAbsolute habsolute
  · exact isEmpty_of_comps hroot (Path.join_comps (Bool.eq_false_iff.mpr habsolute) hroot)

lemma comps_packageNameFolder (name : List Char) (url : Url) :
    (dir.packageNameFolder name url).comps = (dir.registryFolder url).comps ++
      if dir.toLowercase name ≠ name then
        Path.components ('_' :: dir.mixedCasePackageNameEncode name)
      else (name.splitOn '/').flatMap Path.components := by
  have hregistry := dir.isEmpty_registryFolder url
  unfold packageNameFolder
  split_ifs with hlower
  · exact comps_join_text hregistry (by simp)
  · exact comps_foldl_text (fun part => notMem_of_mem_splitOn) hregistry

lemma comps_packageFolderForId (url : Url) : (dir.packageFolderForId folderId url).comps =
      (dir.registryFolder url).comps ++ dir.belowRegistry folderId := by
  have hname := dir.comps_packageNameFolder folderId.nv.name url
  have hempty := isEmpty_of_comps (dir.isEmpty_registryFolder url) hname
  have hrelative := folderId.nv.relative
  unfold packageFolderForId packageFolderForNameAndVersion belowRegistry
  rw [← append_assoc, ← hname]
  split_ifs with hcopy
  · exact comps_join_text hempty hrelative
  · refine comps_join_text hempty ?_
    cases hversion : folderId.nv.version with
    | nil => simp
    | cons c version =>
      rw [hversion] at hrelative
      simpa using hrelative

/-- The folder of a package tells the folder of its registry. -/
lemma packageFolderForId_eq_iff {folderId : NpmPackageCacheFolderId} {u v : Url} :
    dir.packageFolderForId folderId u = dir.packageFolderForId folderId v ↔
      dir.registryFolder u = dir.registryFolder v := by
  constructor
  · intro h
    have hcomps := congrArg Path.comps h
    rw [comps_packageFolderForId, comps_packageFolderForId] at hcomps
    exact Core.Path.ext (append_cancel_right hcomps)
  · intro h
    apply Core.Path.ext
    rw [comps_packageFolderForId, comps_packageFolderForId, h]

end NpmCacheDir

/-! ### Names that are alike -/

/-- Characters that are the same in the name of a directory. -/
def Alike (c d : Char) : Prop :=
  c = d ∨ (c = '_' ∨ isBannedSegmentChar c) ∧ (d = '_' ∨ isBannedSegmentChar d)

lemma sanitizeSegment_eq_iff {a b : List Char} :
    sanitizeSegment a = sanitizeSegment b ↔ Forall₂ Alike a b := by
  have hchar (c d : Char) : (if isBannedSegmentChar c then '_' else c) =
      (if isBannedSegmentChar d then '_' else d) ↔ Alike c d := by
    unfold Alike
    grind
  rw [sanitizeSegment, sanitizeSegment, ← forall₂_eq_eq_eq, forall₂_map_left_iff,
    forall₂_map_right_iff]
  simp only [hchar]

/-- The domain with its port, or the port of an address alone. -/
def hostNames (authority : Authority) : List (List Char) :=
  match authority.host, authority.port with
  | .domain name, none => [name]
  | .domain name, some port => [name ++ '_' :: Nat.toDigits 10 port]
  | .ip _, none => []
  | .ip _, some port => [Nat.toDigits 10 port]

/-- The names that a folder is given after a URL: those of the host, and the parts of the path. -/
def folderNames (url : Url) : List (List Char) :=
  url.authority.elim [] hostNames ++ (url.path.splitOn '/').filter (· ≠ [])

/-- What is known of the URL of a registry: there is a path, no name is `.` or `..`, and none is
empty. -/
structure Registry (url : Url) : Prop where
  path : ∃ rest, url.path = '/' :: rest
  names : ∀ w ∈ folderNames url, w ≠ [] ∧ w ≠ ['.'] ∧ w ≠ ['.', '.']
  domain : ∀ authority ∈ url.authority, authority.host ≠ .domain []

lemma sanitizeSegment_digits (n : ℕ) : sanitizeSegment (Nat.toDigits 10 n) = Nat.toDigits 10 n := by
  refine sanitizeSegment_eq_self fun c hc => ?_
  have hdigit := Nat.isDigit_of_mem_toDigits (by decide) (by decide) hc
  have hbanned : ∀ d ∈ ['/', '\\', '<', '>', ':', '"', '|', '?', '*'], d.isDigit = false :=
    List.all_iff_forall_prop.mp (by decide)
  have := hbanned c
  grind [isBannedSegmentChar, isBannedPathChar]

lemma isName_sanitizeSegment {w : List Char} (h : w ≠ [] ∧ w ≠ ['.'] ∧ w ≠ ['.', '.']) :
    Path.IsName (sanitizeSegment w) := by
  -- a name without a replaced character is the part itself
  have hself (h : '_' ∉ sanitizeSegment w) : sanitizeSegment w = w := by
    refine sanitizeSegment_eq_self fun c hc => ?_
    by_contra hbanned
    exact h (mem_map.mpr ⟨c, hc, if_pos (by simpa using hbanned)⟩)
  refine ⟨by simpa [sanitizeSegment] using h.1, fun hdot => ?_, fun hdots => ?_, ?_⟩
  · exact h.2.1 ((hself (by simp [hdot])).symm.trans hdot)
  · exact h.2.2 ((hself (by simp [hdots])).symm.trans hdots)
  · rw [sanitizeSegment, mem_map]
    rintro ⟨c, -, hc⟩
    split_ifs at hc with hbanned
    · exact absurd hc (by decide)
    · exact hbanned (hc ▸ rfl)

variable {url : Url}

lemma hostDirname_eq (h : ∀ authority ∈ url.authority, authority.host ≠ .domain []) :
    (if hostDirname url = [] then [] else [hostDirname url]) =
      (url.authority.elim [] hostNames).map sanitizeSegment := by
  have hdigits (n : ℕ) : Nat.toDigits 10 n ≠ [] := Nat.toDigits_ne_nil
  cases hauthority : url.authority with
  | none => simp [hostDirname, domain, port, hauthority]
  | some authority =>
    obtain ⟨username, password, host, port⟩ := authority
    cases host with
    | domain name =>
      have hname : name ≠ [] := fun hnil => h _ hauthority (hnil ▸ rfl)
      have hsanitize : sanitizeSegment name ≠ [] := by simpa [sanitizeSegment] using hname
      have happend (rest : List Char) : sanitizeSegment (name ++ '_' :: rest) =
          sanitizeSegment name ++ '_' :: sanitizeSegment rest := map_append
      cases port with
      | none => simp [hostDirname, domain, SafeDirname.port, hauthority, hostNames, hsanitize]
      | some port =>
        simp [hostDirname, domain, SafeDirname.port, hauthority, hostNames, hsanitize, happend,
          sanitizeSegment_digits]
    | ip address =>
      cases port with
      | none => simp [hostDirname, domain, SafeDirname.port, hauthority, hostNames]
      | some port =>
        simp [hostDirname, domain, SafeDirname.port, hauthority, hostNames, hdigits,
          sanitizeSegment_digits]

/-- A folder has the names of its URL, with characters replaced. -/
lemma Registry.dirnames_eq (h : Registry url) :
    dirnames url = (folderNames url).map sanitizeSegment ∧ ∀ w ∈ dirnames url, Path.IsName w := by
  have hdirnames : dirnames url = (folderNames url).map sanitizeSegment := by
    obtain ⟨rest, hpath⟩ := h.path
    have hsplit : url.path.splitOn '/' = [] :: rest.splitOn '/' := by
      rw [hpath]
      exact splitOn_append_cons_self [] rest
    rw [dirnames, hostDirname_eq h.domain, folderNames, map_append, pathSegments, hsplit, hpath]
    simp
  refine ⟨hdirnames, ?_⟩
  rw [hdirnames, forall_mem_map]
  exact fun w hw => isName_sanitizeSegment (h.names w hw)

lemma comps_registryFolder (dir : NpmCacheDir) (h : ∀ w ∈ dirnames url, Path.IsName w) :
    (dir.registryFolder url).comps = dir.rootDir.comps ++ (dirnames url).map Path.named := by
  have hcomps := comps_rootUrlToSafeLocalDirname h
  have hnames : ∀ c ∈ (rootUrlToSafeLocalDirname url).comps, c ≠ .rootDir ∧ c ≠ .curDir := by
    rw [hcomps, forall_mem_map]
    exact fun w _ => ⟨Component.noConfusion, Component.noConfusion⟩
  have hstrip := Path.stripPrefix_of_eq_append (Path.comps_join dir.rootDir hnames)
  rw [NpmCacheDir.registryFolder, Path.eq_append_of_stripPrefix hstrip, hcomps]

def registryUrl (host : Core.Host) (port : Option ℕ) (path : List Char) : Url :=
  ⟨['h', 't', 't', 'p', 's'], some ⟨[], none, host, port⟩, path, none, none⟩

def sampleDir : NpmCacheDir := ⟨.ofString "/npm", by decide +kernel, id, id⟩

def sampleUrl (port : Option ℕ) : Url :=
  registryUrl (.domain ['n', 'p', 'm', 'j', 's']) port ['/', 'a', '/', 'b', '/']

lemma registry_sample (port : Option ℕ) (hport : port = none ∨ port = some 80) :
    Registry (sampleUrl port) := by
  refine ⟨⟨_, rfl⟩, ?_, by simp [sampleUrl, registryUrl]⟩
  rcases hport with rfl | rfl <;> decide

end Deno.Npm
