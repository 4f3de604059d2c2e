import Deno.Lsp.Urls

/-!
# Relative references

Section 5.2 of RFC 3986, and the functions that write references or resolve them.
-/

namespace Deno.References

open List Core

structure Reference where
  authority : Option (List Char)
  path : List Char
  query : Option (List Char)
  fragment : Option (List Char)
  deriving DecidableEq

/-- A URL of a file or of HTTP, with the text of its authority. Its path is never empty. -/
structure Url extends Reference where
  scheme : List Char
  deriving DecidableEq

def cut (c : Char) (text : List Char) : List Char × Option (List Char) :=
  (text.takeWhile (· ≠ c), if c ∈ text then some (text.dropWhile (· ≠ c)).tail else none)

def parse (text : List Char) : Reference :=
  let (text, fragment) := cut '#' text
  let (text, query) := cut '?' text
  if ['/', '/'].isPrefixOf text then
    let text := text.drop 2
    ⟨some (text.takeWhile (· ≠ '/')), text.dropWhile (· ≠ '/'), query, fragment⟩
  else ⟨none, text, query, fragment⟩

def removeDotSegments (path : List Char) : List Char :=
  ['/'].intercalate ([] :: addSegments [] (path.splitOn '/').tail)

def directory (path : List Char) : List Char := (path.reverse.dropWhile (· ≠ '/')).reverse

def lastSegment (path : List Char) : List Char := (path.reverse.takeWhile (· ≠ '/')).reverse

variable (base : Url)

/-- A reference with another path, at the authority of the base. -/
def Url.withPath (r : Reference) (path : List Char) : Url :=
  ⟨{ r with authority := base.authority, path := removeDotSegments path }, base.scheme⟩

def Url.join (text : List Char) : Url :=
  let r := parse text
  if r.authority.isSome then ⟨{ r with path := removeDotSegments r.path }, base.scheme⟩
  else if r.path = [] then { base with query := r.query.or base.query, fragment := r.fragment }
  else base.withPath r (if r.path.head? = some '/' then r.path else directory base.path ++ r.path)

def Url.parse (text : List Char) : Url :=
  let (scheme, rest) := cut ':' text
  join ⟨⟨none, [], none, none⟩, scheme⟩ (rest.getD [])

def resolveUrlFromLocation (location : List Char) : Url :=
  if "http://".toList.isPrefixOf location || "https://".toList.isPrefixOf location then
    Url.parse location
  else if ['/', '/'].isPrefixOf location then Url.parse (base.scheme ++ ':' :: location)
  else if location.head? = some '/' then base.join location
  else
    -- what stands before the last slash
    let seg := if '/' ∈ base.path then (directory base.path).dropLast else base.path
    base.join (seg ++ '/' :: location)

variable {base} {c : Char} {a text path : List Char}

lemma cut_append (h : c ∉ a) : cut c (a ++ text) = (a ++ (cut c text).1, (cut c text).2) := by
  have hall := forall_decide_ne h
  rw [cut, takeWhile_append_of_pos hall, dropWhile_append_of_pos hall]
  simp [cut, h]

/-- What stands before a reference is part of its path. -/
lemma parse_append (hhash : '#' ∉ a) (hquery : '?' ∉ a)
    (hslash : ¬ ['/', '/'] <+: a ++ (parse text).path) (htext : (parse text).authority = none) :
    parse (a ++ text) = { parse text with path := a ++ (parse text).path } := by
  unfold parse at *
  rw [cut_append hhash]
  dsimp only at *
  rw [cut_append hquery]
  dsimp only at *
  split_ifs at * <;> simp_all

lemma parse_of_head (h : text.head? ≠ some '/') : (parse text).authority = none ∧
    (parse text).path.head? ≠ some '/' ∧
      ((parse text).path = [] → ∀ c ∈ text.head?, c = '?' ∨ c = '#') := by
  cases text with
  | nil => simp [parse, cut]
  | cons c text =>
    have hc : c ≠ '/' := by simpa using h
    unfold parse cut
    by_cases hhash : c = '#' <;> by_cases hquery : c = '?' <;> simp [hhash, hquery, hc, Ne.symm hc]

lemma head_parse (h : text.head? = some '/') (hnone : (parse text).authority = none) :
    (parse text).path.head? = some '/' := by
  obtain ⟨rest, rfl⟩ : ∃ rest, text = '/' :: rest := by cases text <;> simp_all
  unfold parse at hnone ⊢
  dsimp only at hnone ⊢
  split_ifs at hnone ⊢
  simp [cut]

lemma directory_append_lastSegment : directory path ++ lastSegment path = path := by
  rw [directory, lastSegment, ← reverse_append, takeWhile_append_dropWhile, reverse_reverse]

lemma exists_directory_eq (h : '/' ∈ path) : ∃ parent, directory path = parent ++ ['/'] := by
  obtain ⟨name, parent, hpath, hname⟩ := eq_append_cons_of_mem (mem_reverse.mpr h)
  exact ⟨parent.reverse, by rw [directory, hpath, dropWhile_ne_append hname, reverse_cons]⟩

lemma directory_eq_self_iff (h : '/' ∈ path) :
    directory path = path ↔ path.getLast? = some '/' := by
  constructor
  · intro hdirectory
    obtain ⟨parent, hparent⟩ := exists_directory_eq h
    rw [← hdirectory, hparent, getLast?_concat]
  · intro hlast
    obtain ⟨parent, rfl⟩ := getLast?_eq_some_iff.mp hlast
    simp [directory]

/-- What is true of the URLs of files and of HTTP. -/
structure Url.Hierarchical (base : Url) : Prop where
  scheme : ':' ∉ base.scheme
  path : base.path.head? = some '/'
  plain : '#' ∉ base.path ∧ '?' ∉ base.path
  dots : ∀ segment ∈ base.path.splitOn '/', isDots segment = false

lemma removeDotSegments_eq_self (hpath : path.head? = some '/')
    (hdots : ∀ segment ∈ path.splitOn '/', isDots segment = false) :
    removeDotSegments path = path := by
  obtain ⟨rest, rfl⟩ : ∃ rest, path = '/' :: rest := by cases path <;> simp_all
  have hsplit : ('/' :: rest).splitOn '/' = [] :: rest.splitOn '/' :=
    splitOn_append_cons_self [] rest
  rw [hsplit, forall_mem_cons] at hdots
  rw [removeDotSegments, hsplit, tail_cons, ComponentCodec.addSegments_eq hdots.2, nil_append,
    ← hsplit, intercalate_splitOn]

lemma Url.Hierarchical.exists_parent (hbase : base.Hierarchical) :
    ∃ parent, directory base.path = parent ++ ['/'] ∧
      parent ++ '/' :: lastSegment base.path = base.path ∧
      ∀ path, (parent ++ '/' :: path).head? = some '/' := by
  obtain ⟨parent, hparent⟩ := exists_directory_eq (mem_of_mem_head? hbase.path)
  have hpath : parent ++ '/' :: lastSegment base.path = base.path := by
    rw [← singleton_append, ← append_assoc, ← hparent, directory_append_lastSegment]
  have hhead := hbase.path
  rw [← hpath] at hhead
  refine ⟨parent, hparent, hpath, fun path => ?_⟩
  cases parent <;> exact hhead

/-- The directory of a URL, with a path without dot segments behind it. -/
lemma Url.Hierarchical.removeDotSegments_directory (hbase : base.Hierarchical)
    (hpath : ∀ segment ∈ path.splitOn '/', isDots segment = false) :
    removeDotSegments (directory base.path ++ path) = directory base.path ++ path := by
  obtain ⟨parent, hparent, hbasePath, hhead⟩ := hbase.exists_parent
  have hdots := hbase.dots
  rw [← hbasePath, splitOn_append_cons_self, forall_mem_append] at hdots
  rw [hparent, append_assoc, singleton_append]
  refine removeDotSegments_eq_self (hhead path) ?_
  rw [splitOn_append_cons_self, forall_mem_append]
  exact ⟨hdots.1, hpath⟩

lemma Url.Hierarchical.removeDotSegments_directory_self (hbase : base.Hierarchical) :
    removeDotSegments (directory base.path) = directory base.path := by
  have h := @removeDotSegments_directory base [] hbase (by simp [isDots])
  rwa [append_nil] at h

/-- A reference that has a path of its own is resolved in the directory of the base. -/
lemma join_of_head (hhead : text.head? ≠ some '/') (hpath : (parse text).path ≠ []) :
    base.join text = base.withPath (parse text) (directory base.path ++ (parse text).path) := by
  obtain ⟨hnone, hhead, -⟩ := parse_of_head hhead
  simp [Url.join, hnone, hpath, hhead]

/-- There is no scheme, that is no colon in the first segment. -/
def IsRelative (text : List Char) : Prop := ':' ∉ text.takeWhile (· ∉ ['/', '?', '#'])

/-- A location is a reference unless its path is empty, and then at a base that ends in a slash and
has no query of its own. -/
theorem resolveUrlFromLocation_eq_join_iff (hbase : base.Hierarchical) {location : List Char}
    (hrelative : IsRelative location)
    (hslash : location.head? = some '/' ∨ ¬ ['/', '/'] <+: directory base.path) :
    resolveUrlFromLocation base location = base.join location ↔
      location.head? = some '/' ∨ (parse location).path ≠ [] ∨
        base.path.getLast? = some '/' ∧ ((parse location).query.isSome ∨ base.query = none) := by
  have hmem : '/' ∈ base.path := mem_of_mem_head? hbase.path
  have hhttp :
      ¬("http://".toList.isPrefixOf location || "https://".toList.isPrefixOf location) := by
    rw [Bool.or_eq_true, isPrefixOf_iff_prefix, isPrefixOf_iff_prefix]
    rintro (⟨rest, rfl⟩ | ⟨rest, rfl⟩) <;> simp [IsRelative] at hrelative
  unfold resolveUrlFromLocation
  rw [if_neg hhttp, if_pos hmem]
  split_ifs with hauthority hroot
  · obtain ⟨rest, rfl⟩ := isPrefixOf_iff_prefix.mp hauthority
    simp only [Url.parse, cut_append hbase.scheme]
    simp [cut, Url.join, parse]
  · simp [hroot]
  · -- the rewritten location is an absolute path, since it does not start with two slashes
    obtain ⟨hnone, hhead, -⟩ := parse_of_head hroot
    obtain ⟨parent, hparent, hbasePath, hstart⟩ := hbase.exists_parent
    have hname := @directory_append_lastSegment base.path
    have hrewritten : base.join ((directory base.path).dropLast ++ '/' :: location) =
        base.withPath (parse location) (directory base.path ++ (parse location).path) := by
      have hparse := @parse_append (directory base.path) location
        (fun h => hbase.plain.1 (hname ▸ mem_append_left _ h))
        (fun h => hbase.plain.2 (hname ▸ mem_append_left _ h)) ?_ hnone
      · rw [hparent, append_assoc, singleton_append] at hparse ⊢
        rw [dropLast_concat, Url.join, hparse]
        simp [hnone, hstart, Url.withPath]
      · have hdirectory := hslash.resolve_left hroot
        rw [hparent] at hdirectory ⊢
        rcases parent with _ | ⟨x, _ | ⟨y, parent⟩⟩ <;> simp_all [cons_prefix_cons]
        rintro ⟨rest, hrest⟩
        simp [← hrest] at hhead
    rw [hrewritten, or_iff_right hroot]
    by_cases hpath : (parse location).path = []
    · rw [← directory_eq_self_iff hmem, Url.join, hnone, hpath, append_nil, Url.withPath,
        hbase.removeDotSegments_directory_self]
      simp only [Option.isSome_none, Bool.false_eq_true, if_false, if_true, Url.mk.injEq,
        Reference.mk.injEq]
      cases (parse location).query <;> simp [eq_comm]
    · simp [join_of_head hroot hpath, hpath]

def sample (scheme path : String) (query : Option (List Char)) : Url :=
  ⟨⟨some ['h'], path.toList, query, none⟩, scheme.toList⟩

lemma hierarchical_sample {scheme path : String} {query : Option (List Char)}
    (h : ':' ∉ scheme.toList ∧ path.toList.head? = some '/' ∧
      ('#' ∉ path.toList ∧ '?' ∉ path.toList) ∧
      ∀ segment ∈ path.toList.splitOn '/', isDots segment = false) :
    (sample scheme path query).Hierarchical :=
  ⟨h.1, h.2.1, h.2.2.1, h.2.2.2⟩

theorem resolveUrlFromLocation_eq_join_iff_directory :
    resolveUrlFromLocation (sample "http" "/a/" (some ['q'])) "?x".toList =
      sample "http" "/a/" (some ['x']) := by
  rw [(resolveUrlFromLocation_eq_join_iff (hierarchical_sample (by decide))
    (by unfold IsRelative; decide) (by decide)).mpr (by decide)]
  decide

/-- The last segment is lost. -/
theorem resolveUrlFromLocation_query :
    resolveUrlFromLocation (sample "http" "/a/b" none) "?x".toList =
      sample "http" "/a/" (some ['x']) ∧
    (sample "http" "/a/b" none).join "?x".toList = sample "http" "/a/b" (some ['x']) := by
  decide

lemma removeDotSegments_dot (parent path : List Char) :
    removeDotSegments (parent ++ '/' :: '.' :: '/' :: path) =
      removeDotSegments (parent ++ '/' :: path) := by
  have hskip : ∀ segments path', addSegments path' (segments ++ ['.'] :: path.splitOn '/') =
      addSegments path' (segments ++ path.splitOn '/') := by
    intro segments
    induction segments with
    | nil => simp [addSegments, isDots, splitOn_ne_nil]
    | cons segment segments ih => simp [addSegments, ih, splitOn_ne_nil]
  have hsplit : ('.' :: '/' :: path).splitOn '/' = ['.'] :: path.splitOn '/' :=
    splitOn_append_cons_self ['.'] path
  obtain ⟨first, rest, hparent⟩ := exists_cons_of_ne_nil (splitOn_ne_nil '/' parent)
  rw [removeDotSegments, removeDotSegments, splitOn_append_cons_self, splitOn_append_cons_self,
    hsplit, hparent, cons_append, cons_append, tail_cons, tail_cons, hskip]

/-- The directory of the base is that of `./`, also for a reference without a path. -/
lemma join_dot (hbase : base.Hierarchical) (hnone : (parse text).authority = none) :
    base.join ('.' :: '/' :: text) =
      base.withPath (parse text) (directory base.path ++ (parse text).path) := by
  obtain ⟨parent, hparent, -⟩ := hbase.exists_parent
  have hparse := @parse_append ['.', '/'] text (by decide) (by decide) (by simp [cons_prefix_cons])
    hnone
  rw [cons_append, singleton_append] at hparse
  rw [join_of_head (by simp) (by simp [hparse]), hparse, hparent]
  simp [Url.withPath, removeDotSegments_dot]

/-- What `make_relative` returns: a reference that has the query of the URL. An absolute path has no
dot segments. -/
structure MakesRelative (base url : Url) (text : List Char) : Prop where
  join_eq : base.join text = url
  query : (parse text).query = url.query
  absolute : text.head? = some '/' → (parse text).authority = none ∧
    ∀ segment ∈ (parse text).path.splitOn '/', isDots segment = false

def Url.asStr (url : Url) : List Char :=
  url.scheme ++ ':' :: url.authority.elim [] ('/' :: '/' :: ·) ++ url.path ++
    url.query.elim [] ('?' :: ·) ++ url.fragment.elim [] ('#' :: ·)

/-- `relative_url`, where `relative` is what `make_relative` of the referrer returns. -/
def relativeUrl (resolved : Url) (relative : List Char) : List Char :=
  if resolved.scheme = "file".toList then
    if relative.isEmpty then '.' :: '/' :: lastSegment resolved.path
    else if "../".toList.isPrefixOf relative then relative
    else '.' :: '/' :: relative
  else resolved.asStr

variable {url : Url}

lemma MakesRelative.authority (h : MakesRelative base url text) :
    (parse text).authority = none := by
  by_cases hhead : text.head? = some '/'
  · exact (h.absolute hhead).1
  · exact (parse_of_head hhead).1

/-- With `./` before it, a reference leads to the same place if it has a path of its own that is not
absolute, or the base is a directory. -/
lemma MakesRelative.join_dot_iff (h : MakesRelative base url text) (hbase : base.Hierarchical) :
    base.join ('.' :: '/' :: text) = url ↔
      text.head? ≠ some '/' ∧ ((parse text).path ≠ [] ∨ base.path.getLast? = some '/') := by
  obtain ⟨parent, hparent, -⟩ := hbase.exists_parent
  have hnone := h.authority
  have hjoin := h.join_eq
  rw [join_dot hbase hnone]
  by_cases hhead : text.head? = some '/'
  · refine iff_of_false (fun heq => ?_) (by simp [hhead])
    have hdots := (h.absolute hhead).2
    have hpathHead := head_parse hhead hnone
    have hpath := congrArg (·.path) (heq.trans hjoin.symm)
    rw [Url.join, hnone, if_neg (by simp), if_neg (by rintro hnil; simp [hnil] at hpathHead),
      if_pos hpathHead] at hpath
    simp only [Url.withPath] at hpath
    rw [hbase.removeDotSegments_directory hdots, removeDotSegments_eq_self hpathHead hdots,
      hparent] at hpath
    have := congrArg length hpath
    simp at this
    omega
  · by_cases hpath : (parse text).path = []
    · have hquery := h.query
      rw [← hjoin, Url.join, hnone, hpath] at hquery ⊢
      rw [append_nil, Url.withPath, hbase.removeDotSegments_directory_self,
        ← directory_eq_self_iff (mem_of_mem_head? hbase.path)]
      simpa [hhead] using fun _ => hquery
    · simp [hpath, hhead, ← join_of_head hhead hpath, hjoin]

/-- A reference leads to the module if it is empty or has a path that is not absolute. Without a
path it does so from a directory only. -/
theorem join_relativeUrl_iff (hbase : base.Hierarchical) (hfile : url.scheme = "file".toList)
    (htext : MakesRelative base url text) :
    base.join (relativeUrl url text) = url ↔ text = [] ∨ text.head? ≠ some '/' ∧
      ((parse text).path ≠ [] ∨ base.path.getLast? = some '/') := by
  rw [relativeUrl, if_pos hfile]
  split_ifs with hempty hdots
  · obtain rfl := isEmpty_iff.mp hempty
    refine iff_of_true ?_ (.inl rfl)
    obtain rfl : { base with fragment := none } = url := htext.join_eq
    have hquery : none = base.query := htext.query
    obtain ⟨parent, hparent, hpath, hhead⟩ := hbase.exists_parent
    have hname := @directory_append_lastSegment base.path
    have hparse := @parse_append ('.' :: '/' :: lastSegment base.path) [] ?_ ?_
      (by simp [cons_prefix_cons]) rfl
    · rw [append_nil] at hparse
      rw [join_of_head (by simp) (by simp [hparse]), hparse, hparent]
      have hnormal := removeDotSegments_eq_self hbase.path hbase.dots
      simp [Url.withPath, removeDotSegments_dot, hpath, hnormal, ← hquery, parse, cut]
    · simpa using fun h => hbase.plain.1 (hname ▸ mem_append_right _ h)
    · simpa using fun h => hbase.plain.2 (hname ▸ mem_append_right _ h)
  · obtain ⟨rest, rfl⟩ := isPrefixOf_iff_prefix.mp hdots
    refine iff_of_true htext.join_eq (.inr ⟨by simp, .inl fun hpath => ?_⟩)
    simpa using (parse_of_head (by simp)).2.2 hpath
  · rw [htext.join_dot_iff hbase, or_iff_right (fun h => hempty (isEmpty_iff.mpr h))]

theorem join_relativeUrl_iff_directory : (sample "file" "/a/" none).join
      (relativeUrl (sample "file" "/a/" (some ['q'])) "?q".toList) =
    sample "file" "/a/" (some ['q']) :=
  (join_relativeUrl_iff (hierarchical_sample (by decide)) rfl
    ⟨by decide, by decide, by decide⟩).mpr (by decide)

/-- The last segment is lost. -/
theorem join_relativeUrl_query :
    (sample "file" "/a/b.ts" none).join "?q".toList = sample "file" "/a/b.ts" (some ['q']) ∧
    (sample "file" "/a/b.ts" none).join (relativeUrl (sample "file" "/a/b.ts" (some ['q']))
      "?q".toList) = sample "file" "/a/" (some ['q']) := by
  decide

def Url.parent (base : Url) : Url := { base with path := directory base.path }

def dotted (text : List Char) : List Char :=
  if "../".toList.isPrefixOf text || "./".toList.isPrefixOf text then text else '.' :: '/' :: text

/-- `relative_specifier`, over what the libraries do. -/
def relativeSpecifier (makeRelative : Url → Url → Option (List Char))
    (toPercentDecodedStr : List Char → List Char) (source target : Url) : Option (List Char) := do
  let isDir := target.path.getLast? = some '/'
  if isDir ∧ source = target then return ['.', '/']
  let source :=
    if source.path.getLast? ≠ some '/' ∧ '/' ∈ source.path then source.parent else source
  let text ← makeRelative source target
  let text := if isDir ∧ text.getLast? ≠ some '/' ∧ target.query = none then text ++ ['/'] else text
  return toPercentDecodedStr (dotted text)

lemma Url.Hierarchical.parent (hbase : base.Hierarchical) :
    base.parent.Hierarchical ∧ base.parent.path.getLast? = some '/' ∧
      directory base.parent.path = directory base.path := by
  obtain ⟨parent, hparent, hpath, hhead⟩ := hbase.exists_parent
  have hlast : base.parent.path.getLast? = some '/' := by simp [Url.parent, hparent]
  have hname := @directory_append_lastSegment base.path
  have hdots := hbase.dots
  rw [← hpath, splitOn_append_cons_self, forall_mem_append] at hdots
  have hhierarchical : base.parent.Hierarchical :=
    { scheme := hbase.scheme
      path := by simpa only [Url.parent, hparent] using hhead []
      plain := ⟨fun h => hbase.plain.1 (hname ▸ mem_append_left _ h),
        fun h => hbase.plain.2 (hname ▸ mem_append_left _ h)⟩
      dots := by
        rw [Url.parent, hparent, splitOn_append_cons_self, forall_mem_append]
        exact ⟨hdots.1, by simp [isDots]⟩ }
  exact ⟨hhierarchical, hlast,
    (directory_eq_self_iff (mem_of_mem_head? hhierarchical.path)).mpr hlast⟩

lemma join_parent (hbase : base.Hierarchical) (hhead : text.head? ≠ some '/')
    (hpath : (parse text).path ≠ []) : base.parent.join text = base.join text := by
  rw [join_of_head hhead hpath, join_of_head hhead hpath, hbase.parent.2.2]
  rfl

lemma dotted_eq : (∃ rest, text = '.' :: rest) ∧ dotted text = text ∨
    dotted text = '.' :: '/' :: text := by
  unfold dotted
  split_ifs with h
  · rw [Bool.or_eq_true, isPrefixOf_iff_prefix, isPrefixOf_iff_prefix] at h
    obtain ⟨rest, rfl⟩ | ⟨rest, rfl⟩ := h <;> exact .inl ⟨⟨_, rfl⟩, rfl⟩
  · exact .inr rfl

lemma join_dotted (hbase : base.Hierarchical) :
    base.join (dotted text) = base.parent.join (dotted text) := by
  obtain ⟨rest, hrest⟩ : ∃ rest, dotted text = '.' :: rest := by
    obtain ⟨⟨rest, rfl⟩, heq⟩ | heq := @dotted_eq text <;> exact ⟨_, heq⟩
  rw [hrest]
  refine (join_parent hbase (by simp) fun hpath => ?_).symm
  simpa using (parse_of_head (by simp)).2.2 hpath

lemma MakesRelative.join_dotted_iff (h : MakesRelative base url text) (hbase : base.Hierarchical)
    (hlast : base.path.getLast? = some '/') :
    base.join (dotted text) = url ↔ text.head? ≠ some '/' := by
  obtain ⟨⟨rest, rfl⟩, heq⟩ | heq := @dotted_eq text
  · rw [heq]
    exact iff_of_true h.join_eq (by simp)
  · simp [heq, h.join_dot_iff hbase, hlast]

/-! ### A slash that is pushed -/

lemma addSegments_push {last : List Char} (hlast : isDots last) (segments added) :
    addSegments added (segments ++ [last, []]) = addSegments added (segments ++ [last]) := by
  induction segments generalizing added with
  | nil => simp [addSegments, hlast, show isDots [] = false from rfl]
  | cons segment segments ih => simp [addSegments, ih]

lemma exists_addSegments_concat {last : List Char} (hlast : isDots last = false) (segments added) :
    ∃ before, addSegments added (segments ++ [last]) = before ++ [last] := by
  induction segments generalizing added with
  | nil => exact ⟨added, by simp [addSegments, hlast]⟩
  | cons segment segments ih => exact ih _

/-- If a path leads to a directory, a slash may stand behind it. -/
lemma removeDotSegments_push (hmem : '/' ∈ path) (hlast : path.getLast? ≠ some '/')
    (hdir : (removeDotSegments path).getLast? = some '/') :
    removeDotSegments (path ++ ['/']) = removeDotSegments path := by
  obtain ⟨parent, hparent⟩ := exists_directory_eq hmem
  have hpath := @directory_append_lastSegment path
  rw [hparent, append_assoc, singleton_append] at hpath
  have hname : '/' ∉ lastSegment path := by
    intro h
    have := mem_takeWhile_imp (mem_reverse.mp h)
    simp at this
  generalize lastSegment path = name at hpath hname
  obtain ⟨first, rest, hfirst⟩ := exists_cons_of_ne_nil (splitOn_ne_nil '/' parent)
  have hsplit : path.splitOn '/' = first :: (rest ++ [name]) := by
    rw [← hpath, splitOn_append_cons_self, hfirst, splitOn_eq_singleton hname]
    rfl
  have hpush : (path ++ ['/']).splitOn '/' = first :: (rest ++ [name, []]) := by
    rw [splitOn_append_cons_self, hsplit]
    simp
  rw [removeDotSegments, hsplit, tail_cons] at hdir
  rw [removeDotSegments, removeDotSegments, hsplit, hpush, tail_cons, tail_cons]
  cases hdots : isDots name with
  | true => rw [addSegments_push hdots]
  | false =>
    -- the last segment stays the last one
    obtain ⟨before, hbefore⟩ := exists_addSegments_concat hdots rest []
    have hends := flatMap_append_singleton '/' (cons_ne_nil [] (before ++ [name]))
    rw [← cons_append, flatMap_append, flatMap_singleton, ← append_assoc,
      append_cancel_right_eq] at hends
    rw [hbefore, ← cons_append, ← hends] at hdir
    cases hnil : name.getLast? with
    | none =>
      rw [getLast?_eq_none_iff.mp hnil] at hpath
      exact absurd (by simp [← hpath]) hlast
    | some c =>
      rw [getLast?_append, hnil, Option.some_or] at hdir
      exact absurd (mem_of_mem_getLast? (hnil.trans hdir)) hname

lemma fragment_join : (base.join text).fragment = (cut '#' text).2 := by
  unfold Url.join parse
  dsimp only
  split_ifs <;> rfl

lemma cut_of_none (h : (cut c text).2 = none) : cut c text = (text, none) ∧ c ∉ text := by
  have hmem : c ∉ text := by
    intro hmem
    simp [cut, hmem] at h
  refine ⟨?_, hmem⟩
  rw [cut, takeWhile_eq_self_iff.mpr (forall_decide_ne hmem), if_neg hmem]

lemma query_parse : (parse text).query = (cut '?' (cut '#' text).1).2 := by
  unfold parse
  dsimp only
  split_ifs <;> rfl

/-- A reference that is a path alone. -/
lemma parse_eq_self (hnone : (parse text).authority = none) (hquery : (parse text).query = none)
    (hfragment : (cut '#' text).2 = none) :
    parse text = ⟨none, text, none, none⟩ ∧ '#' ∉ text ∧ '?' ∉ text := by
  obtain ⟨hcut, hhash⟩ := cut_of_none hfragment
  rw [query_parse, hcut] at hquery
  obtain ⟨hcut', hquestion⟩ := cut_of_none hquery
  refine ⟨?_, hhash, hquestion⟩
  simp only [parse, hcut, hcut'] at hnone ⊢
  split_ifs at hnone ⊢
  rfl

lemma cut_push_ne (h : c ∈ text) : (cut c (text ++ ['/'])).2 ≠ (cut c text).2 := by
  obtain ⟨before, after, rfl, hbefore⟩ := eq_append_cons_of_mem h
  rw [append_assoc, cut_append hbefore, cut_append hbefore]
  simp [cut]

lemma fragment_dotted : (cut '#' (dotted text)).2 = (cut '#' text).2 := by
  obtain ⟨-, heq⟩ | heq := @dotted_eq text <;> rw [heq]
  exact congrArg (·.2) (@cut_append '#' ['.', '/'] text (by decide))

section

variable (h : MakesRelative base url text) (hbase : base.Hierarchical)
  (hdir : url.path.getLast? = some '/') (hlast : text.getLast? ≠ some '/')
  (hquery : url.query = none)

include h hbase hdir hlast hquery

lemma MakesRelative.push (hhead : text.head? ≠ some '/') (hne : text ≠ [])
    (hfragment : (cut '#' text).2 = none) : MakesRelative base url (text ++ ['/']) := by
  obtain ⟨parent, hparent, -⟩ := hbase.exists_parent
  obtain ⟨hparse, hhash, hquestion⟩ := parse_eq_self h.authority (h.query.trans hquery) hfragment
  have hhead' : (text ++ ['/']).head? ≠ some '/' := by
    cases text <;> simp_all
  have hprefix : ¬ ['/', '/'] <+: text ++ ['/'] := by
    rintro ⟨rest, hrest⟩
    exact hhead' (congrArg head? hrest).symm
  have hpush : parse (text ++ ['/']) = ⟨none, text ++ ['/'], none, none⟩ :=
    parse_append hhash hquestion hprefix rfl
  have hurl := h.join_eq
  rw [join_of_head hhead (by simpa [hparse] using hne), hparse] at hurl
  have hpath := @removeDotSegments_push (directory base.path ++ text) (by simp [hparent])
    (by rwa [getLast?_append, getLast?_eq_some_getLast hne, Option.some_or,
      ← getLast?_eq_some_getLast hne]) (by rwa [← hurl] at hdir)
  refine ⟨?_, by rw [hpush, hquery], fun hslash => absurd hslash hhead'⟩
  rw [join_of_head hhead' (by simp [hpush]), hpush, ← hurl, ← append_assoc]
  simp only [Url.withPath, hpath]

/-- The text for a directory, with a slash pushed, is right unless it is empty or ends in a
fragment. -/
lemma MakesRelative.join_push_iff (hbaseLast : base.path.getLast? = some '/') :
    base.join (dotted (text ++ ['/'])) = url ↔
    text.head? ≠ some '/' ∧ text ≠ [] ∧ url.fragment = none := by
  have hfragment : url.fragment = (cut '#' text).2 := by rw [← h.join_eq, fragment_join]
  constructor
  · intro hjoin
    have hnone : (cut '#' text).2 = none := by
      by_contra hsome
      have hmem : '#' ∈ text := by
        by_contra hmem
        simp [cut, hmem] at hsome
      refine cut_push_ne hmem ?_
      rw [← hfragment, ← hjoin, fragment_join, fragment_dotted]
    refine ⟨fun hhead => ?_, ?_, hfragment.trans hnone⟩
    · -- an absolute path without dot segments ends like the path of the URL
      obtain ⟨hauthority, hdots⟩ := h.absolute hhead
      obtain ⟨hparse, -⟩ := parse_eq_self hauthority (h.query.trans hquery) hnone
      have hurl := congrArg (·.path) h.join_eq
      have hne : text ≠ [] := by
        rintro rfl
        cases hhead
      rw [hparse] at hdots
      simp only [Url.join, hparse, hne, hhead, Option.isSome_none, Bool.false_eq_true, if_false,
        if_true, Url.withPath, removeDotSegments_eq_self hhead hdots] at hurl
      exact hlast (hurl ▸ hdir)
    · rintro rfl
      have hpath := congrArg (·.path) (hjoin.trans h.join_eq.symm)
      rw [show dotted ([] ++ ['/']) = '.' :: '/' :: ['/'] from rfl, join_dot hbase rfl] at hpath
      have hslash := @Url.Hierarchical.removeDotSegments_directory base ['/'] hbase (by decide)
      have hself := (directory_eq_self_iff (mem_of_mem_head? hbase.path)).mpr hbaseLast
      have : removeDotSegments (directory base.path ++ ['/']) = base.path := hpath
      rw [hslash, hself] at this
      simp at this
  · rintro ⟨hhead, hne, hnone⟩
    have hpush := h.push hbase hdir hlast hquery hhead hne (hfragment ▸ hnone)
    refine (hpush.join_dotted_iff hbase hbaseLast).mpr ?_
    cases text <;> simp_all

end

/-- Percent-decoding, and what the parser of URLs reads in a text. -/
structure UrlText where
  toPercentDecodedStr : List Char → List Char
  read : List Char → List Char

/-- What is decoded in a text is read as the escapes that it was. -/
def UrlText.Keeps (urls : UrlText) (text : List Char) : Prop :=
  urls.read (urls.toPercentDecodedStr text) = text

/-- Dots and slashes are read as they are, and keep what is next to them. -/
structure UrlText.Lawful (urls : UrlText) : Prop where
  dot : urls.read ['.', '/'] = ['.', '/']
  keeps_dot : ∀ text, urls.Keeps text → urls.Keeps ('.' :: '/' :: text)
  keeps_slash : ∀ text, urls.Keeps text → urls.Keeps (text ++ ['/'])

def decodeSpaces : List Char → List Char
  | '%' :: '2' :: '0' :: text => ' ' :: decodeSpaces text
  | c :: text => c :: decodeSpaces text
  | [] => []

/-- A parser for which only spaces are escaped. -/
def spaces : UrlText where
  toPercentDecodedStr := decodeSpaces
  read text := text.flatMap fun c => if c = ' ' then ['%', '2', '0'] else [c]

lemma decodeSpaces_push : decodeSpaces (text ++ ['/']) = decodeSpaces text ++ ['/'] := by
  fun_induction decodeSpaces text with
  | case1 text ih => simp [decodeSpaces, ih]
  | case2 c text hescape ih =>
    rw [cons_append, decodeSpaces, ih, cons_append]
    rintro rest rfl hrest
    obtain _ | ⟨x, _ | ⟨y, text⟩⟩ := text <;> simp_all
  | case3 => rfl

lemma lawful_spaces : spaces.Lawful where
  dot := by decide
  keeps_dot text h := by
    unfold UrlText.Keeps spaces at *
    simpa [decodeSpaces] using h
  keeps_slash text h := by
    unfold UrlText.Keeps spaces at *
    simpa [decodeSpaces_push] using h

end Deno.References
