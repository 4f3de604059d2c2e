import Deno.Node.TargetString

/-!
# Substitution in string targets

The star of a target is replaced in the text of the whole path, and only the first one; the path is
not looked at again afterwards. So the file is the right one for directories without a star and
targets with at most one, as long as no `..` comes out of the substitution.
-/

namespace Deno

open Core Path List

variable {text w s : List Char}

/-! ### Segments -/

/-- A text that stands between two slashes is a segment for the check, too. -/
lemma mem_splitOnP_of_mem_splitOn (h : w ∈ text.splitOn '/') (hw : '\\' ∉ w) :
    w ∈ text.splitOnP fun c => c = '/' || c = '\\' := by
  have hsingle {v : List Char} (hslash : '/' ∉ v) (hback : '\\' ∉ v) :
      v.splitOnP (fun c => c = '/' || c = '\\') = [v] := by
    refine splitOnP_eq_singleton fun c hc => ?_
    have hne : c ≠ '/' := fun heq => hslash (heq ▸ hc)
    have hne' : c ≠ '\\' := fun heq => hback (heq ▸ hc)
    simp [hne, hne']
  induction text using segments_ind with
  | last v hv =>
    rw [splitOn_eq_singleton hv, mem_singleton] at h
    subst h
    rw [hsingle hv hw]
    exact mem_cons_self
  | cons v rest hv ih =>
    rw [splitOnP_append_cons _ _ (by simp), mem_append]
    rw [splitOn_append_cons_self_of_not_mem hv] at h
    rcases List.mem_cons.mp h with rfl | h
    · rw [hsingle hv hw]
      exact .inl mem_cons_self
    · exact .inr (ih h)

lemma notMem_of_not_invalidSegment (h : invalidSegment text = false) :
    ['.'] ∉ text.splitOn '/' ∧ ['.', '.'] ∉ text.splitOn '/' := by
  rw [invalidSegment, any_eq_false] at h
  constructor <;> intro hmem <;>
    exact absurd (h _ (mem_splitOnP_of_mem_splitOn hmem (by decide))) (by decide)

lemma star_mem_iff : '*' ∈ text ↔ ∃ w ∈ names text, '*' ∈ w :=
  mem_iff_exists_mem_names (by decide) (by decide)

lemma parentDir_notMem_map_named (ns : List (List Char)) : .parentDir ∉ ns.map named := by
  rw [mem_map]
  rintro ⟨v, -, heq⟩
  cases heq

lemma getLast?_append_slash {a b : List Char} (h : b = [] ∨ b.getLast? = some '/') :
    (a ++ '/' :: b).getLast? = some '/' := by
  rw [getLast?_append, getLast?_cons]
  rcases h with rfl | h
  · rfl
  · rw [h]
    rfl

/-- A part of a text with more behind it is a part of the text, or its last part with that. -/
lemma mem_splitOn_append {v : List Char} (hv : '/' ∉ v) (h : w ∈ (text ++ v).splitOn '/') :
    w ∈ text.splitOn '/' ∨ ∃ u ∈ text.splitOn '/', w = u ++ v ∧
      (u = [] → text = [] ∨ text.getLast? = some '/') := by
  induction text using segments_ind with
  | last u hu =>
    have huv : '/' ∉ u ++ v := by simp [hu, hv]
    rw [splitOn_eq_singleton huv, mem_singleton] at h
    rw [splitOn_eq_singleton hu]
    exact .inr ⟨u, mem_cons_self, h, .inl⟩
  | cons u rest hu ih =>
    rw [append_assoc, cons_append, splitOn_append_cons_self_of_not_mem hu] at h
    rw [splitOn_append_cons_self_of_not_mem hu]
    rcases List.mem_cons.mp h with rfl | h
    · exact .inl mem_cons_self
    · rcases ih h with h | ⟨x, hx, h, hlast⟩
      · exact .inl (mem_cons_of_mem _ h)
      · exact .inr ⟨x, mem_cons_of_mem _ hx, h, fun hnil => .inr (getLast?_append_slash (hlast hnil))⟩

/-! ### Substitution in texts -/

lemma components_replaceAll (s text : List Char) : components (replaceAll '*' s text) =
      (text.splitOn '/').flatMap fun w => components (replaceAll '*' s w) := by
  induction text using segments_ind with
  | last v hv => rw [splitOn_eq_singleton hv, flatMap_singleton]
  | cons v rest hv ih =>
    have hslash : replaceAll '*' s ('/' :: rest) = '/' :: replaceAll '*' s rest := rfl
    rw [splitOn_append_cons_self_of_not_mem hv, replaceAll_append, hslash, components_append,
      ih, flatMap_cons]

/-- The first star replaced: only the name it stands in changes. -/
lemma components_replaceFirst_intercalate {before after : List (List Char)}
    (hbefore : ∀ v ∈ before, IsName v ∧ '*' ∉ v) (hw : '*' ∈ w) (hafter : ∀ v ∈ after, IsName v) :
    components (replaceFirst '*' s (['/'].intercalate (before ++ w :: after))) =
      before.map named ++ (components (replaceFirst '*' s w) ++ after.map named) := by
  induction before with
  | nil =>
    cases after with
    | nil =>
      simp
    | cons v vs =>
      rw [nil_append, intercalate_cons_cons, append_assoc, singleton_append,
        replaceFirst_append_of_mem hw, components_append, components_intercalate hafter]
      rfl
  | cons v vs ih =>
    obtain ⟨hname, hstar⟩ := hbefore v mem_cons_self
    have hne : vs ++ w :: after ≠ [] := by simp
    rw [cons_append, intercalate_cons_of_ne_nil hne, append_assoc,
      replaceFirst_append_of_notMem hstar, singleton_append, replaceFirst,
      if_neg (by decide), components_append, hname.components,
      ih fun x hx => hbefore x (mem_cons_of_mem _ hx)]
    rfl

variable {ns : List (List Char)}

lemma replaceFirst_intercalate_of_notMem (h : ∀ v ∈ ns, '*' ∉ v) :
    replaceFirst '*' s (['/'].intercalate ns) = ['/'].intercalate ns := by
  refine replaceFirst_of_notMem ?_
  induction ns with
  | nil => exact not_mem_nil
  | cons v vs ih =>
    have hv := h v mem_cons_self
    have hvs := ih fun x hx => h x (mem_cons_of_mem _ hx)
    cases vs with
    | nil => rwa [intercalate_singleton]
    | cons x xs =>
      simp [hv, hvs]

lemma components_replaceAll_names (s text : List Char) : components (replaceAll '*' s text) =
      (names text).flatMap fun w => components (replaceAll '*' s w) := by
  rw [components_replaceAll, names]
  generalize text.splitOn '/' = ws
  induction ws with
  | nil => rfl
  | cons w ws ih =>
    rw [filter_cons, flatMap_cons, ih]
    split_ifs with hw
    · rw [flatMap_cons]
    · have hnone : components (replaceAll '*' s w) = [] := by
        rw [decide_eq_true_eq, not_and_or, not_ne_iff, not_ne_iff] at hw
        rcases hw with rfl | rfl <;> rfl
      rw [hnone, nil_append]

lemma flatMap_replaceAll_of_notMem (hname : ∀ v ∈ ns, IsName v) (hstar : ∀ v ∈ ns, '*' ∉ v) :
    (ns.flatMap fun v => components (replaceAll '*' s v)) = ns.map named := by
  induction ns with
  | nil => rfl
  | cons v vs ih =>
    rw [flatMap_cons, replaceAll_of_notMem (hstar v mem_cons_self),
      (hname v mem_cons_self).components,
      ih (fun x hx => hname x (mem_cons_of_mem _ hx)) fun x hx => hstar x (mem_cons_of_mem _ hx)]
    rfl

lemma sum_count_eq_zero : (ns.map (List.count '*')).sum = 0 ↔ ∀ v ∈ ns, '*' ∉ v := by
  simp [List.sum_eq_zero_iff_forall_eq_nat, List.count_eq_zero]

/-- Among names with one star at most, one has it, or none. -/
lemma exists_star_or_forall_notMem (hcount : (ns.map (List.count '*')).sum ≤ 1) :
    (∀ v ∈ ns, '*' ∉ v) ∨ ∃ before u v after, ns = before ++ (u ++ '*' :: v) :: after ∧
      '*' ∉ u ∧ '*' ∉ v ∧ (∀ x ∈ before, '*' ∉ x) ∧ ∀ x ∈ after, '*' ∉ x := by
  by_cases h : ∃ w ∈ ns, '*' ∈ w
  · right
    obtain ⟨w, hw, hstar⟩ := h
    obtain ⟨before, after, rfl⟩ := append_of_mem hw
    obtain ⟨u, v, rfl, hu⟩ := eq_append_cons_of_mem hstar
    rw [map_append, map_cons, sum_append, sum_cons, count_append, count_cons_self] at hcount
    exact ⟨before, u, v, after, rfl, hu, List.count_eq_zero.mp (by omega),
      sum_count_eq_zero.mp (by omega), sum_count_eq_zero.mp (by omega)⟩
  · left
    intro v hv hstar
    exact h ⟨v, hv, hstar⟩

/-- With one star at most, and none before, replacing the first one replaces every one. -/
lemma components_replaceFirst_eq {ds ws : List (List Char)} (hname : ∀ v ∈ ds ++ ws, IsName v)
    (hds : ∀ v ∈ ds, '*' ∉ v) (hcount : (ws.map (List.count '*')).sum ≤ 1) :
    components (replaceFirst '*' s (['/'].intercalate (ds ++ ws))) =
      ds.map named ++ ws.flatMap fun w => components (replaceAll '*' s w) := by
  have hws : ∀ v ∈ ws, IsName v := fun v hv => hname v (mem_append_right _ hv)
  rcases exists_star_or_forall_notMem hcount with hstar | ⟨before, u, v, after, rfl, hu, hv, hb, ha⟩
  · have hnone : ∀ x ∈ ds ++ ws, '*' ∉ x := fun x hx =>
      (List.mem_append.mp hx).elim (hds x) (hstar x)
    rw [replaceFirst_intercalate_of_notMem hnone, components_intercalate hname,
      flatMap_replaceAll_of_notMem hws hstar, map_append]
  · have hbefore : ∀ x ∈ ds ++ before, IsName x ∧ '*' ∉ x := by
      intro x hx
      refine ⟨hname x ?_, (List.mem_append.mp hx).elim (hds x) (hb x)⟩
      rw [← append_assoc]
      exact mem_append_left _ hx
    have hafter : ∀ x ∈ after, IsName x := fun x hx =>
      hws x (mem_append_right _ (mem_cons_of_mem _ hx))
    have hbefore' : ∀ x ∈ before, IsName x := fun x hx => hws x (mem_append_left _ hx)
    rw [← append_assoc, components_replaceFirst_intercalate hbefore (by simp) hafter,
      replaceFirst_eq_replaceAll hu hv, flatMap_append, flatMap_cons,
      flatMap_replaceAll_of_notMem hbefore' hb, flatMap_replaceAll_of_notMem hafter ha,
      map_append, append_assoc]

/-- The ways to put two texts together to `..`. -/
lemma eq_of_append_eq_dots {a b : List Char} (h : a ++ b = ['.', '.']) :
    (a = [] ∧ b = ['.', '.']) ∨ (a = ['.'] ∧ b = ['.']) ∨ (a = ['.', '.'] ∧ b = []) := by
  match a, h with
  | [], h => exact .inl ⟨rfl, h⟩
  | [_], h =>
    injection h with hc hb
    exact .inr (.inl ⟨by rw [hc], hb⟩)
  | [_, _], h =>
    injection h with hc h
    injection h with hd hb
    exact .inr (.inr ⟨by rw [hc, hd], hb⟩)

/-- No `..` comes out of a valid text between others, unless one of them is `..` and a slash stands
next to it. -/
lemma parentDir_notMem_append {u v : List Char} (hu : '/' ∉ u) (hv : '/' ∉ v) (hs : s ≠ [])
    (hvalid : invalidSegment s = false) (hu' : u = ['.', '.'] → s.head? ≠ some '/')
    (hv' : v = ['.', '.'] → s.getLast? ≠ some '/') :
    .parentDir ∉ components (u ++ (s ++ v)) := by
  rw [parentDir_mem_components]
  obtain ⟨hdot, hdots⟩ := notMem_of_not_invalidSegment hvalid
  intro hmem
  by_cases hslash : '/' ∈ s
  · obtain ⟨x, y, rfl, hx⟩ := eq_append_cons_of_mem hslash
    rw [splitOn_append_cons_self_of_not_mem hx, mem_cons, not_or] at hdot hdots
    have hux : '/' ∉ u ++ x := by simp [hu, hx]
    rw [append_assoc, cons_append, ← append_assoc,
      splitOn_append_cons_self_of_not_mem hux, mem_cons] at hmem
    rcases hmem with heq | hmem
    · -- at the beginning
      rcases eq_of_append_eq_dots heq.symm with ⟨-, hx'⟩ | ⟨-, hx'⟩ | ⟨hdd, rfl⟩
      · exact hdots.1 hx'.symm
      · exact hdot.1 hx'.symm
      · exact hu' hdd rfl
    · rcases mem_splitOn_append hv hmem with hmem | ⟨z, hz, heq, hlast⟩
      · exact hdots.2 hmem
      · -- at the end
        rcases eq_of_append_eq_dots heq.symm with ⟨hnil, hdd⟩ | ⟨rfl, -⟩ | ⟨rfl, -⟩
        · exact hv' hdd (getLast?_append_slash (hlast hnil))
        · exact hdot.2 hz
        · exact hdots.2 hz
  · have hall : '/' ∉ u ++ (s ++ v) := by simp [hu, hslash, hv]
    rw [splitOn_eq_singleton hslash, mem_singleton] at hdot hdots
    rw [splitOn_eq_singleton hall, mem_singleton] at hmem
    rcases eq_of_append_eq_dots hmem.symm with ⟨-, hsv⟩ | ⟨-, hsv⟩ | ⟨-, hsv⟩
    · rcases eq_of_append_eq_dots hsv with ⟨hnil, -⟩ | ⟨hs', -⟩ | ⟨hs', -⟩
      · exact hs hnil
      · exact hdot hs'.symm
      · exact hdots hs'.symm
    · rcases List.append_eq_singleton_iff.mp hsv with ⟨hnil, -⟩ | ⟨hs', -⟩
      · exact hs hnil
      · exact hdot hs'.symm
    · exact hs (List.append_eq_nil_iff.mp hsv).1

/-! ### The path of a target -/

def packagePath (dir : List Char) : Path := .ofString (String.ofList ('/' :: dir))

variable {dir rest subpath : List Char}

lemma comps_packagePath (dir : List Char) : (packagePath dir).comps = .rootDir :: components dir :=
  comps_ofString_slash dir

abbrev targetPath (dir rest : List Char) : Path :=
  (packagePath dir).join (.ofString (String.ofList ('.' :: '/' :: rest)))

lemma comps_join_target (dir rest : List Char) :
    (targetPath dir rest).comps = .rootDir :: (components dir ++ components rest) := by
  have habs : (ofString (String.ofList ('.' :: '/' :: rest))).isAbsolute = false := by
    rw [isAbsolute, comps_ofString_dot]
    rfl
  have hempty : (packagePath dir).isEmpty = false := by
    rw [Path.isEmpty, comps_packagePath]
    rfl
  rw [join_comps habs hempty, interior_ofString habs, comps_packagePath]
  rfl

lemma startsWith_join_target (dir rest : List Char) :
    (targetPath dir rest).startsWith (packagePath dir) := by
  rw [startsWith_iff, comps_join_target, comps_packagePath]
  exact prefix_append _ _

/-- The directories and targets that are not turned away: there is no `..` in the directory, and
the check of the target passes. -/
structure Accepted (dir rest : List Char) : Prop where
  dir : .parentDir ∉ components dir
  target : invalidSegment rest = false

namespace Accepted

variable (h : Accepted dir rest)

include h

lemma components_dir : components dir = (names dir).map named :=
  components_eq_map_named fun hmem => h.dir (parentDir_mem_components.mpr hmem)

lemma components_target : components rest = (names rest).map named :=
  components_eq_map_named (notMem_of_not_invalidSegment h.target).2

lemma isName {v : List Char} (hv : v ∈ names dir ++ names rest) : IsName v := by
  rcases List.mem_append.mp hv with hv | hv
  · exact isName_of_mem_names (fun hmem => h.dir (parentDir_mem_components.mpr hmem)) hv
  · exact isName_of_mem_names (notMem_of_not_invalidSegment h.target).2 hv

lemma comps_join :
    (targetPath dir rest).comps = .rootDir :: (names dir ++ names rest).map named := by
  rw [comps_join_target, h.components_dir, h.components_target, map_append]

end Accepted

/-! ### What the code returns -/

section

variable (resolver : PackageResolver) (referrer : Referrer) (match_ : List Char)
variable (pattern internal : Bool)

def targetResult (dir rest subpath : List Char) : Except AnyError Specifier :=
  resolver.resolvePackageTargetString (packagePath dir) referrer ('.' :: '/' :: rest) subpath match_
    pattern internal

/-- The path is the one of the directory with components that do not lead out of it. -/
def Inside (path dir : Path) : Prop := ∃ rest, path.comps = dir.comps ++ rest ∧ .parentDir ∉ rest

/-- The target for a subpath: every star replaced in a pattern, or the subpath behind the target. -/
def substituted (target subpath : List Char) (pattern : Bool) : List Char :=
  if pattern then replaceAll '*' subpath target else target ++ subpath

/-- If there is a result, it is the file that the target stands for, in the package. -/
def Exact (dir rest subpath : List Char) : Prop :=
  ∀ url, targetResult resolver referrer match_ pattern internal dir rest subpath = .ok url →
    ∃ path, url = .file path ∧ Inside path (packagePath dir) ∧
      path = (packagePath dir).join (.ofString (String.ofList
        (substituted ('.' :: '/' :: rest) subpath pattern)))

variable {resolver referrer match_ pattern internal}

/-- A directory with `..` does not begin a clean path. -/
lemma not_startsWith_of_parentDir (h : .parentDir ∈ components dir) (rest : List Char) :
    ¬ (resolver.clean (targetPath dir rest)).startsWith (packagePath dir) := by
  have habs : (targetPath dir rest).isAbsolute := by
    rw [isAbsolute, comps_join_target]
    rfl
  rw [startsWith_iff, comps_packagePath]
  exact fun hbegins => resolver.clean_absolute _ habs (hbegins.subset (mem_cons_of_mem _ h))

lemma targetResult_ne_ok_of_not_accepted (h : ¬ Accepted dir rest) (url : Specifier) :
    targetResult resolver referrer match_ pattern internal dir rest subpath ≠ .ok url := by
  have hstarts : startsWith ('.' :: '/' :: rest) ['.', '/'] := rfl
  rw [targetResult, PackageResolver.resolvePackageTargetString]
  dsimp only
  split_ifs with hpattern hinvalid hbegins
  · exact nofun
  · exact nofun
  · rw [Bool.not_eq_true] at hinvalid
    by_cases hdir : .parentDir ∈ components dir
    · exact absurd hbegins (not_startsWith_of_parentDir hdir rest)
    · exact absurd ⟨hdir, hinvalid⟩ h
  · exact nofun

lemma targetResult_eq (h : Accepted dir rest) :
    targetResult resolver referrer match_ pattern internal dir rest subpath =
      if subpath ≠ [] ∧ ¬ pattern ∧ ¬ endsWith ('.' :: '/' :: rest) ['/'] then
        .error (throwInvalidPackageTarget match_ ('.' :: '/' :: rest) (packagePath dir) internal
          referrer)
      else resolver.withSubpath (packagePath dir) referrer subpath match_ pattern internal
        (targetPath dir rest) := by
  have hstarts : startsWith ('.' :: '/' :: rest) ['.', '/'] := rfl
  have hinvalid : ¬ invalidSegment (('.' :: '/' :: rest).drop 2) := by
    rw [Bool.not_eq_true]
    exact h.target
  rw [targetResult, PackageResolver.resolvePackageTargetString]
  rw [if_neg (not_not_intro hstarts), if_neg hinvalid, resolver.clean_names _ _ h.comps_join,
    if_neg (not_not_intro (startsWith_join_target dir rest))]

lemma comps_join_substituted (dir rest subpath : List Char) :
    ((packagePath dir).join (.ofString (String.ofList
      (substituted ('.' :: '/' :: rest) subpath pattern)))).comps =
      .rootDir :: (components dir ++ components (substituted rest subpath pattern)) := by
  have hdot : substituted ('.' :: '/' :: rest) subpath pattern =
      '.' :: '/' :: substituted rest subpath pattern := by
    cases pattern <;> rfl
  rw [hdot, comps_join_target]

variable {comps : List Component}

/-- A file is the right one if its components are, and no `..` is among those of the target. -/
lemma exact_iff_of_ok (h : Accepted dir rest) {path : Path}
    (hresult : targetResult resolver referrer match_ pattern internal dir rest subpath =
      .ok (.file path)) (hpath : path.comps = .rootDir :: comps) :
    Exact resolver referrer match_ pattern internal dir rest subpath ↔
      comps = (names dir).map named ++ components (substituted rest subpath pattern) ∧
        .parentDir ∉ components (substituted rest subpath pattern) := by
  rw [Exact, hresult]
  constructor
  · intro hexact
    obtain ⟨path', hurl, ⟨rest', hinside, hparent⟩, heq⟩ := hexact _ rfl
    cases hurl
    have hcomps : comps = (names dir).map named ++ components (substituted rest subpath pattern) := by
      have := congrArg Path.comps heq
      rw [hpath, comps_join_substituted, h.components_dir] at this
      exact tail_eq_of_cons_eq this
    refine ⟨hcomps, ?_⟩
    rw [hpath, hcomps, comps_packagePath, h.components_dir, ← cons_append] at hinside
    rwa [append_cancel_left hinside]
  · rintro ⟨hcomps, hparent⟩ url hurl
    cases hurl
    refine ⟨path, rfl, ⟨_, ?_, hparent⟩, ext ?_⟩
    · rw [hpath, hcomps, comps_packagePath, h.components_dir, cons_append]
    · rw [hpath, hcomps, comps_join_substituted, h.components_dir]

lemma toFileSpecifier_of_comps {path : Path}
    (h : path.comps = .rootDir :: comps) : toFileSpecifier path = .ok (.file path) := by
  have habs : path.isAbsolute := by
    rw [isAbsolute, h]
    rfl
  rw [toFileSpecifier, if_pos habs]

lemma exists_first_star (h : ∃ w ∈ ns, '*' ∈ w) :
    ∃ before w after, ns = before ++ w :: after ∧ '*' ∈ w ∧ ∀ x ∈ before, '*' ∉ x := by
  have hsome : (ns.find? ('*' ∈ ·)).isSome := by simpa using h
  obtain ⟨w, hw⟩ := Option.isSome_iff_exists.mp hsome
  obtain ⟨hstar, before, after, heq, hbefore⟩ := List.find?_eq_some_iff_append.mp hw
  exact ⟨before, w, after, heq, by simpa using hstar, fun x hx => by simpa using hbefore x hx⟩

/-- A text without a star that takes the place of one does not give the name back. -/
lemma named_notMem_components {u v : List Char} (hs : '*' ∉ s) :
    named (u ++ '*' :: v) ∉ components (u ++ (s ++ v)) := by
  intro h
  have hcount := count_eq_sum_names (c := '*') (by decide) (by decide) (u ++ (s ++ v))
  obtain ⟨before, after, heq⟩ := append_of_mem (mem_names_of_named_mem h)
  rw [heq, map_append, map_cons, sum_append, sum_cons, count_append, count_append, count_append,
    count_cons_self, List.count_eq_zero.mpr hs] at hcount
  omega

/-- A target with a slash at its end has nothing to share with the subpath. -/
lemma components_append_of_endsWith (hends : endsWith ('.' :: '/' :: rest) ['/'])
    (subpath : List Char) :
    components (rest ++ subpath) = components rest ++ components subpath := by
  have hsuffix : ['/'] <:+ '/' :: rest := by
    have := List.isSuffixOf_iff_suffix.mp hends
    rcases List.suffix_cons_iff.mp this with heq | hsuffix
    · cases heq
    · exact hsuffix
  rcases List.suffix_cons_iff.mp hsuffix with heq | ⟨r, rfl⟩
  · injection heq with _ hrest
    rw [← hrest]
    rfl
  · rw [append_assoc, singleton_append, components_append, components_append]
    simp [components, componentOfSegment]

/-- The patterns whose substitution is exact: there is no star in the directory and one at most in
the target, and no slash of the subpath comes next to a `..` of the target. -/
structure SafePattern (dir rest subpath : List Char) : Prop where
  dir : '*' ∉ dir
  count : rest.count '*' ≤ 1
  first : ∀ w ∈ rest.splitOn '/', ['.', '.', '*'] <+: w → subpath.head? ≠ some '/'
  last : ∀ w ∈ rest.splitOn '/', ['*', '.', '.'] <:+ w → subpath.getLast? ≠ some '/'

section

variable (h : Accepted dir rest)

include h

/-! ### Without a subpath -/

lemma exact_nil_iff :
    Exact resolver referrer match_ pattern internal dir rest [] ↔ (pattern → '*' ∉ rest) := by
  have hresult : targetResult resolver referrer match_ pattern internal dir rest [] =
      .ok (.file (targetPath dir rest)) := by
    rw [targetResult_eq h, if_neg (fun hne => hne.1 rfl), PackageResolver.withSubpath, if_pos rfl,
      toFileSpecifier_of_comps h.comps_join]
  have hparent : .parentDir ∉ components rest := fun hmem =>
    (notMem_of_not_invalidSegment h.target).2 (parentDir_mem_components.mp hmem)
  rw [exact_iff_of_ok h hresult h.comps_join, map_append, append_cancel_left_eq,
    ← h.components_target]
  cases pattern with
  | false =>
    have hsub : substituted rest [] false = rest := append_nil rest
    rw [hsub]
    simp [hparent]
  | true =>
    have hsub : substituted rest [] true = replaceAll '*' [] rest := rfl
    rw [hsub]
    constructor
    · rintro ⟨heq, -⟩ - hstar
      -- the star is still there
      obtain ⟨w, hw, hmem⟩ := star_mem_iff.mp hstar
      have hnamed : named w ∈ components (replaceAll '*' [] rest) := by
        rw [← heq, h.components_target]
        exact mem_map_of_mem hw
      exact notMem_replaceAll not_mem_nil (star_mem_iff.mpr ⟨w, mem_names_of_named_mem hnamed, hmem⟩)
    · intro hstar
      rw [replaceAll_of_notMem (hstar rfl)]
      exact ⟨rfl, hparent⟩

/-! ### With a subpath -/

lemma exact_pattern_iff (hs : subpath ≠ []) (hvalid : invalidSegment subpath = false) :
    Exact resolver referrer match_ true internal dir rest subpath ↔
      components (replaceFirst '*' subpath (['/'].intercalate (names dir ++ names rest))) =
        (names dir).map named ++ components (replaceAll '*' subpath rest) ∧
      .parentDir ∉ components (replaceAll '*' subpath rest) := by
  have hslash (t : List Char) : replaceFirst '*' subpath ('/' :: t) =
      '/' :: replaceFirst '*' subpath t := rfl
  have hresult : targetResult resolver referrer match_ true internal dir rest subpath =
      .ok (.file (.ofString (String.ofList ('/' :: replaceFirst '*' subpath
        (['/'].intercalate (names dir ++ names rest)))))) := by
    rw [targetResult_eq h, if_neg (by simp), PackageResolver.withSubpath, if_neg hs,
      if_neg (Bool.not_eq_true _ ▸ hvalid), if_pos rfl]
    rw [toList_display h.comps_join, hslash, toFileSpecifier_of_comps (comps_ofString_slash _)]
  exact exact_iff_of_ok h hresult (comps_ofString_slash _)

lemma exact_of_safePattern (hsafe : SafePattern dir rest subpath)
    (hs : subpath ≠ []) (hvalid : invalidSegment subpath = false) :
    Exact resolver referrer match_ true internal dir rest subpath := by
  have hdir : ∀ v ∈ names dir, '*' ∉ v := fun v hv hstar =>
    hsafe.dir (star_mem_iff.mpr ⟨v, hv, hstar⟩)
  have hcount : ((names rest).map (List.count '*')).sum ≤ 1 := by
    rw [← count_eq_sum_names (by decide) (by decide)]
    exact hsafe.count
  have hname : ∀ v ∈ names rest, IsName v := fun v hv => h.isName (mem_append_right _ hv)
  rw [exact_pattern_iff h hs hvalid, components_replaceAll_names]
  refine ⟨components_replaceFirst_eq (fun v hv => h.isName hv) hdir hcount, ?_⟩
  rcases exists_star_or_forall_notMem hcount with hstar | ⟨before, u, v, after, heq, hu, hv, hb, ha⟩
  · rw [flatMap_replaceAll_of_notMem hname hstar]
    exact parentDir_notMem_map_named _
  · rw [heq] at hname
    have hmem : u ++ '*' :: v ∈ rest.splitOn '/' := by
      have : u ++ '*' :: v ∈ names rest := by rw [heq]; simp
      exact (List.mem_filter.mp this).1
    have hslash := notMem_of_mem_splitOn hmem
    rw [mem_append, mem_cons, not_or, not_or] at hslash
    have hu' : u = ['.', '.'] → subpath.head? ≠ some '/' := by
      rintro rfl
      exact hsafe.first _ hmem ⟨v, rfl⟩
    have hv' : v = ['.', '.'] → subpath.getLast? ≠ some '/' := by
      rintro rfl
      exact hsafe.last _ hmem ⟨u, rfl⟩
    have hmiddle := parentDir_notMem_append hslash.1 hslash.2.2 hs hvalid hu' hv'
    rw [heq, flatMap_append, flatMap_cons, ← replaceFirst_eq_replaceAll hu hv,
      replaceFirst_append_cons hu,
      flatMap_replaceAll_of_notMem (fun x hx => hname x (mem_append_left _ hx)) hb,
      flatMap_replaceAll_of_notMem
        (fun x hx => hname x (mem_append_right _ (mem_cons_of_mem _ hx))) ha,
      mem_append, mem_append, not_or, not_or]
    exact ⟨parentDir_notMem_map_named _, hmiddle, parentDir_notMem_map_named _⟩

/-- A subpath without a star, and with a character that is no slash or dot, cannot make up for a
star that is not replaced, or replaced in the wrong place. -/
lemma safePattern_of_exact (hvalid : invalidSegment subpath = false) (hstar : '*' ∉ subpath)
    (hname : ∃ c ∈ subpath, c ≠ '/' ∧ c ≠ '.')
    (hexact : Exact resolver referrer match_ true internal dir rest subpath) :
    SafePattern dir rest subpath := by
  obtain ⟨c, hc, hslash, hdot⟩ := hname
  obtain ⟨hcomps, hparent⟩ := (exact_pattern_iff h (ne_nil_of_mem hc) hvalid).mp hexact
  have hisName : ∀ x ∈ names dir ++ names rest, IsName x := fun x hx => h.isName hx
  have hdir : '*' ∉ dir := by
    intro hmem
    obtain ⟨before, w, after, heq, hw, hbefore⟩ := exists_first_star (star_mem_iff.mp hmem)
    obtain ⟨u, v, rfl, hu⟩ := eq_append_cons_of_mem hw
    rw [heq, append_assoc, cons_append] at hisName hcomps
    rw [components_replaceFirst_intercalate
        (fun x hx => ⟨hisName x (mem_append_left _ hx), hbefore x hx⟩) hw
        (fun x hx => hisName x (mem_append_right _ (mem_cons_of_mem _ hx))),
      replaceFirst_append_cons hu] at hcomps
    simp only [map_append, map_cons, append_assoc, cons_append, append_cancel_left_eq] at hcomps
    -- the name with the star would have to be the first one that comes out of it
    obtain ⟨w, hw, hcw⟩ := (mem_iff_exists_mem_names hslash hdot).mp
      (show c ∈ u ++ (subpath ++ v) by simp [hc])
    obtain ⟨first, others, hfirst⟩ :=
      exists_cons_of_ne_nil (ne_nil_of_mem (named_mem_of_mem_names hw hcw hdot))
    refine @named_notMem_components subpath u v hstar ?_
    rw [hfirst, cons_append] at hcomps
    rw [hfirst, ← head_eq_of_cons_eq hcomps]
    exact mem_cons_self
  refine ⟨hdir, ?_, ?_, ?_⟩
  · by_cases hmem : '*' ∈ rest
    · obtain ⟨before, w, after, heq, hw, hbefore⟩ := exists_first_star (star_mem_iff.mp hmem)
      obtain ⟨u, v, rfl, hu⟩ := eq_append_cons_of_mem hw
      have hbefore' : ∀ x ∈ names dir ++ before, '*' ∉ x := by
        intro x hx
        rcases List.mem_append.mp hx with hx | hx
        · exact fun hmem => hdir (star_mem_iff.mpr ⟨x, hx, hmem⟩)
        · exact hbefore x hx
      rw [heq, ← append_assoc] at hisName hcomps
      rw [components_replaceFirst_intercalate
          (fun x hx => ⟨hisName x (mem_append_left _ hx), hbefore' x hx⟩) hw
          (fun x hx => hisName x (mem_append_right _ (mem_cons_of_mem _ hx))),
        replaceFirst_append_cons hu, map_append, append_assoc, append_cancel_left_eq] at hcomps
      -- no star is left in the names of the right path
      have hnone {x : List Char} (hx : named x ∈ before.map named ++
          (components (u ++ (subpath ++ v)) ++ after.map named)) : '*' ∉ x := by
        intro hmem
        rw [hcomps] at hx
        exact notMem_replaceAll hstar (star_mem_iff.mpr ⟨x, mem_names_of_named_mem hx, hmem⟩)
      have hv : '*' ∉ v := by
        intro hmem
        obtain ⟨x, hx, hmem⟩ := star_mem_iff.mp (show '*' ∈ u ++ (subpath ++ v) by simp [hmem])
        exact hnone (by simp [named_mem_of_mem_names hx hmem (by decide)]) hmem
      have hafter : ∀ x ∈ after, '*' ∉ x := fun x hx =>
        hnone (mem_append_right _ (mem_append_right _ (mem_map_of_mem hx)))
      rw [count_eq_sum_names (by decide) (by decide), heq, map_append, map_cons,
        sum_append, sum_cons, sum_count_eq_zero.mpr hbefore, sum_count_eq_zero.mpr hafter,
        count_append, count_cons_self, List.count_eq_zero.mpr hu, List.count_eq_zero.mpr hv]
    · rw [List.count_eq_zero.mpr hmem]
      exact Nat.zero_le 1
  · rintro w hw ⟨v, rfl⟩ hhead
    obtain ⟨s, rfl⟩ := head?_eq_some_iff.mp hhead
    refine hparent ?_
    rw [components_replaceAll, mem_flatMap]
    refine ⟨_, hw, ?_⟩
    have hreplaced : replaceAll '*' ('/' :: s) (['.', '.', '*'] ++ v) =
        ['.', '.'] ++ '/' :: (s ++ replaceAll '*' ('/' :: s) v) := rfl
    rw [hreplaced, components_append]
    exact mem_append_left _ mem_cons_self
  · rintro w hw ⟨u, rfl⟩ hlast
    obtain ⟨s, rfl⟩ := getLast?_eq_some_iff.mp hlast
    refine hparent ?_
    rw [components_replaceAll, mem_flatMap]
    refine ⟨_, hw, ?_⟩
    have hreplaced : replaceAll '*' (s ++ ['/']) (u ++ ['*', '.', '.']) =
        (replaceAll '*' (s ++ ['/']) u ++ s) ++ '/' :: ['.', '.'] := by
      rw [replaceAll_append, replaceAll_cons_self]
      simp [replaceAll]
    rw [hreplaced, components_append]
    exact mem_append_right _ mem_cons_self

section

variable (hends : endsWith ('.' :: '/' :: rest) ['/'])

include hends

lemma targetResult_join (hs : subpath ≠ []) (hvalid : invalidSegment subpath = false)
    (hcomps : ((targetPath dir rest).join (.ofString (String.ofList subpath))).comps =
      .rootDir :: ns.map named) :
    targetResult resolver referrer match_ false internal dir rest subpath =
      .ok (.file ((targetPath dir rest).join (.ofString (String.ofList subpath)))) := by
  rw [targetResult_eq h, if_neg (fun hne => hne.2.2 hends), PackageResolver.withSubpath, if_neg hs,
    if_neg (Bool.not_eq_true _ ▸ hvalid), if_neg Bool.false_ne_true,
    resolver.clean_names _ _ hcomps, toFileSpecifier_of_comps hcomps]

/-- A relative subpath goes behind the target. -/
lemma exact_join_relative (hs : subpath ≠ []) (hvalid : invalidSegment subpath = false)
    (hrel : (ofString (String.ofList subpath)).isAbsolute = false) :
    Exact resolver referrer match_ false internal dir rest subpath := by
  have hdots := (notMem_of_not_invalidSegment hvalid).2
  have hempty : (targetPath dir rest).isEmpty = false := by
    rw [Path.isEmpty, h.comps_join]
    rfl
  have hcomps : ((targetPath dir rest).join (.ofString (String.ofList subpath))).comps =
      .rootDir :: (names dir ++ names rest ++ names subpath).map named := by
    rw [join_comps hrel hempty, interior_ofString hrel, h.comps_join,
      components_eq_map_named hdots, cons_append, ← map_append]
  have hsub : components (substituted rest subpath false) =
      (names rest ++ names subpath).map named := by
    have : substituted rest subpath false = rest ++ subpath := rfl
    rw [this, components_append_of_endsWith hends, h.components_target,
      components_eq_map_named hdots, map_append]
  rw [exact_iff_of_ok h (targetResult_join h hends hs hvalid hcomps) hcomps, hsub]
  refine ⟨?_, ?_⟩
  · rw [append_assoc, map_append]
  · exact parentDir_notMem_map_named _

/-- An absolute subpath takes the place of everything. -/
lemma exact_join_absolute_iff {s : List Char} (hvalid : invalidSegment ('/' :: s) = false) :
    Exact resolver referrer match_ false internal dir rest ('/' :: s) ↔
      components dir = [] ∧ components rest = [] := by
  have hdots : ['.', '.'] ∉ s.splitOn '/' := by
    have := (notMem_of_not_invalidSegment hvalid).2
    rw [← parentDir_mem_components] at this ⊢
    rwa [components_cons_slash] at this
  have habs : (ofString (String.ofList ('/' :: s))).isAbsolute := by
    rw [isAbsolute, comps_ofString_slash]
    rfl
  have hjoin : (targetPath dir rest).join
      (.ofString (String.ofList ('/' :: s))) = .ofString (String.ofList ('/' :: s)) := by
    rw [join, if_pos (.inl habs)]
  have hcomps : ((targetPath dir rest).join
      (.ofString (String.ofList ('/' :: s)))).comps = .rootDir :: (names s).map named := by
    rw [hjoin, comps_ofString_slash, components_eq_map_named hdots]
  have hsub : components (substituted rest ('/' :: s) false) =
      components rest ++ (names s).map named := by
    have : substituted rest ('/' :: s) false = rest ++ '/' :: s := rfl
    rw [this, components_append, components_eq_map_named hdots]
  rw [exact_iff_of_ok h (targetResult_join h hends (cons_ne_nil '/' s) hvalid hcomps) hcomps, hsub,
    ← h.components_dir]
  constructor
  · rintro ⟨heq, -⟩
    have hlength := congrArg List.length heq
    rw [length_append, length_append] at hlength
    exact ⟨List.length_eq_zero_iff.mp (by omega), List.length_eq_zero_iff.mp (by omega)⟩
  · rintro ⟨hdir, hrest⟩
    rw [hdir, hrest]
    exact ⟨rfl, parentDir_notMem_map_named _⟩

end

end

/-! ### When it is exact -/

variable (resolver referrer match_ pattern internal)

/-- The directory, the target and the subpath are not turned away. -/
structure Answered (dir rest subpath : List Char) : Prop extends Accepted dir rest where
  valid : invalidSegment subpath = false
  slash : subpath = [] ∨ pattern ∨ endsWith ('.' :: '/' :: rest) ['/']

/-- When the answer is the right one. Without a subpath, a pattern has no star. A subpath of a
pattern is safe, and any other subpath is relative or the target is the root of the file system. -/
def Right (dir rest subpath : List Char) : Prop :=
  if pattern then if subpath = [] then '*' ∉ rest else SafePattern dir rest subpath
  else subpath.head? = some '/' → components dir = [] ∧ components rest = []

variable {pattern} in
lemma exact_of_not_answered (h : ¬ Answered pattern dir rest subpath) :
    Exact resolver referrer match_ pattern internal dir rest subpath := by
  intro url hurl
  by_cases haccepted : Accepted dir rest
  · rw [targetResult_eq haccepted] at hurl
    split_ifs at hurl with herror
    by_cases hs : subpath = []
    · exact absurd ⟨haccepted, hs ▸ rfl, .inl hs⟩ h
    · cases hinvalid : invalidSegment subpath with
      | true => simp [PackageResolver.withSubpath, hs, hinvalid] at hurl
      | false => exact absurd ⟨haccepted, hinvalid, by grind⟩ h
  · exact absurd hurl (targetResult_ne_ok_of_not_accepted haccepted url)

/-- Every target with a subpath that is answered is resolved exactly, and in the package, if the
answer is right in the sense above. Only a subpath of a pattern that has a star of its own, or no
character but slashes and dots, can be resolved exactly besides. -/
theorem resolvePackageTargetString_exact_iff (dir rest subpath : List Char) :
    ((Answered pattern dir rest subpath → Right pattern dir rest subpath) →
      Exact resolver referrer match_ pattern internal dir rest subpath) ∧
    ((pattern → subpath = [] ∨ '*' ∉ subpath ∧ ∃ c ∈ subpath, c ≠ '/' ∧ c ≠ '.') →
      Exact resolver referrer match_ pattern internal dir rest subpath →
      Answered pattern dir rest subpath → Right pattern dir rest subpath) := by
  by_cases h : Answered pattern dir rest subpath
  · obtain ⟨haccepted, hvalid, hslash⟩ := h
    have hanswered : Answered pattern dir rest subpath := ⟨haccepted, hvalid, hslash⟩
    simp only [hanswered, true_imp_iff, Right]
    by_cases hs : subpath = []
    · subst hs
      rw [exact_nil_iff haccepted]
      cases pattern <;> simp
    · cases pattern with
      | true =>
        simp only [hs, if_true, if_false, false_or, true_imp_iff]
        exact ⟨fun hsafe => exact_of_safePattern haccepted hsafe hs hvalid,
          fun hplain => safePattern_of_exact haccepted hvalid hplain.1 hplain.2⟩
      | false =>
        have hends := (hslash.resolve_left hs).resolve_left Bool.false_ne_true
        rw [if_neg Bool.false_ne_true]
        cases habs : (ofString (String.ofList subpath)).isAbsolute with
        | false =>
          have hexact : Exact resolver referrer match_ false internal dir rest subpath :=
            exact_join_relative haccepted hends hs hvalid habs
          refine ⟨fun _ => hexact, fun _ _ hhead => ?_⟩
          obtain ⟨s, rfl⟩ := head?_eq_some_iff.mp hhead
          rw [isAbsolute, comps_ofString_slash] at habs
          cases habs
        | true =>
          obtain ⟨s, rfl⟩ := exists_of_isAbsolute_ofString habs
          rw [exact_join_absolute_iff haccepted hends hvalid]
          simp
  · exact ⟨fun _ => exact_of_not_answered resolver referrer match_ internal h,
      fun _ _ h' => absurd h' h⟩

end

lemma wf_filter (p : Path) : ∀ c ∈ (p.comps.filter (· ≠ .parentDir)).tail,
    c ≠ .rootDir ∧ c ≠ .curDir :=
  fun c hc => p.wf c (filter_sublist.tail.subset hc)

def noPackages : PackageResolver where
  parse _ := none
  packageResolve _ _ := .ok none
  isBuiltinNodeModule _ := false
  clean p := ⟨p.comps.filter (· ≠ .parentDir), wf_filter p⟩
  clean_names p ns h := by
    refine ext (List.filter_eq_self.mpr fun c hc => ?_)
    rw [h] at hc
    simp only [decide_eq_true_eq]
    rintro rfl
    rcases List.mem_cons.mp hc with hc | hc
    · cases hc
    · exact parentDir_notMem_map_named ns hc
  clean_absolute p _ := by simp

/-- Only the first star of a target is replaced, and a star of the directory is replaced before it;
a `..` that comes out of the substitution leads out of the package. -/
theorem not_exact_stars :
    targetResult noPackages ⟨"file:///m.js", "file:///m.js"⟩ "./*".toList true false "p".toList
        "*/*.js".toList "x".toList = .ok (.file (.ofString "/p/x/*.js")) ∧
      ¬ Exact noPackages ⟨"file:///m.js", "file:///m.js"⟩ "./*".toList true false "p".toList
        "*/*.js".toList "x".toList ∧
    targetResult noPackages ⟨"file:///m.js", "file:///m.js"⟩ "./*".toList true false "w*/p".toList
        "*.js".toList "x".toList = .ok (.file (.ofString "/wx/p/*.js")) ∧
      ¬ Exact noPackages ⟨"file:///m.js", "file:///m.js"⟩ "./*".toList true false "w*/p".toList
        "*.js".toList "x".toList ∧
    targetResult noPackages ⟨"file:///m.js", "file:///m.js"⟩ "./*".toList true false "p".toList
        "..*".toList "/x".toList = .ok (.file (.ofString "/p/../x")) ∧
      ¬ Exact noPackages ⟨"file:///m.js", "file:///m.js"⟩ "./*".toList true false "p".toList
        "..*".toList "/x".toList := by
  refine ⟨rfl, fun h => ?_, rfl, fun h => ?_, rfl, fun h => ?_⟩
  · obtain ⟨path, hurl, -, heq⟩ := h (.file (.ofString "/p/x/*.js")) rfl
    cases hurl
    exact absurd heq (by decide)
  · obtain ⟨path, hurl, -, heq⟩ := h (.file (.ofString "/wx/p/*.js")) rfl
    cases hurl
    exact absurd heq (by decide)
  · obtain ⟨path, hurl, ⟨rest, hcomps, hparent⟩, -⟩ := h (.file (.ofString "/p/../x")) rfl
    cases hurl
    have hcomps' : (packagePath "p".toList).comps ++ [.parentDir, .normal "x"] =
        (packagePath "p".toList).comps ++ rest := hcomps
    rw [← append_cancel_left hcomps'] at hparent
    exact hparent mem_cons_self

end Deno
