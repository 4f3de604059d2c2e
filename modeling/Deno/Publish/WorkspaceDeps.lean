import Deno.Publish.OrderRun
import Deno.Publish.WorkspaceWalk

/-!
# Workspace dependencies

A dependency belongs to the package whose directory its path is in. The texts of the URLs tell the
same unless the URL of a package starts with that of another one, which then hides it.
-/

namespace Deno.Publish

open Core List

variable {Name : Type} [LinearOrder Name]

/-! ### The packages of a workspace -/

/-- A file that is in a directory, by the components of its path. -/
def FileUrls.InDir (files : FileUrls) (dirPath : Path) (url : Url) : Prop :=
  ∃ path, files.toFilePath url = some path ∧ path.startsWith dirPath = true

instance (files : FileUrls) (dirPath : Path) (url : Url) : Decidable (files.InDir dirPath url) :=
  decidable_of_iff _ (Option.any_eq_true (·.startsWith dirPath) (files.toFilePath url))

/-- Members with distinct names, none in the directory of another one. -/
structure Workspace (Name : Type) where
  members : List (WorkspaceMember Name)
  names_nodup : (members.map WorkspaceMember.packageName).Nodup
  apart : ∀ a ∈ members, ∀ b ∈ members, a.packageName ≠ b.packageName →
    a.dirPath.startsWith b.dirPath = false

/-- A module that is reached from the exports of a package through modules in its directory depends
on the file. -/
def Meets (files : FileUrls) (graph : ModuleGraph) (member : WorkspaceMember Name) (target : Url) :
    Prop :=
  ∃ urls, member.exportValueUrls = .ok urls ∧ ∃ specifier,
    Reached graph (files.InDir member.dirPath)
      (fun url => url ∈ urls ∧ files.InDir member.dirPath url) specifier ∧
    graph.FileDep specifier target

def DependsOn (files : FileUrls) (graph : ModuleGraph) (a b : WorkspaceMember Name) : Prop :=
  ∃ target, Meets files graph a target ∧ files.InDir b.dirPath target

/-- The text of a URL goes on behind that of a directory with a new component, or ends there. -/
def Below (dir url : List Char) : Prop :=
  url = dir ∨ ['/'] <:+ dir ∧ dir <+: url ∨ ∃ c ∈ ['/', '?', '#'], dir ++ [c] <+: url

lemma below_iff_any {dir url : List Char} : (url = dir ∨ ['/'] <:+ dir ∧ dir <+: url ∨
    ['/', '?', '#'].any fun c => (dir ++ [c]).isPrefixOf url) ↔ Below dir url := by
  simp [Below]

instance (dir url : List Char) : Decidable (Below dir url) := decidable_of_iff _ below_iff_any

lemma Below.isPrefix {dir url : List Char} (h : Below dir url) : dir <+: url := by
  rcases h with rfl | ⟨-, h⟩ | ⟨c, -, h⟩
  · exact prefix_rfl
  · exact h
  · exact (prefix_append _ _).trans h

/-- Directories, and the files that are met, have URLs that tell by whole components what is in a
directory. A file that is met is in a package if its URL starts with that of one, and the exports of
a package are in its directory. -/
structure Spelled (files : FileUrls) (graph : ModuleGraph)
    (members : List (WorkspaceMember Name)) : Prop where
  inside : ∀ member ∈ members, ∀ dirUrl, files.fromFilePath member.dirPath = some dirUrl →
    ∀ a ∈ members, ∀ target, Meets files graph a target →
      (files.InDir member.dirPath target ↔ Below dirUrl.asStr target.asStr)
  dirs : ∀ a ∈ members, ∀ b ∈ members, ∀ urlA urlB, files.fromFilePath a.dirPath = some urlA →
    files.fromFilePath b.dirPath = some urlB → Below urlB.asStr urlA.asStr →
      a.dirPath.startsWith b.dirPath = true
  owned : ∀ member ∈ members, ∀ dirUrl, files.fromFilePath member.dirPath = some dirUrl →
    ∀ a ∈ members, ∀ target, Meets files graph a target → inDirUrl dirUrl target = true →
      ∃ b ∈ members, files.InDir b.dirPath target
  exports : ∀ member ∈ members, ∀ urls, member.exportValueUrls = .ok urls →
    ∀ url ∈ urls, (graph.get url).isSome = true → files.InDir member.dirPath url

def FileUrls.Starts (files : FileUrls) (a b : Path) : Prop :=
  ∃ urlA, files.fromFilePath a = some urlA ∧ ∃ urlB, files.fromFilePath b = some urlB ∧
    urlA.asStr <+: urlB.asStr

/-- The URL of a package starts with that of the package that is walked, or of one listed before. -/
def Hidden (files : FileUrls) (members : List (WorkspaceMember Name)) (a b : WorkspaceMember Name) :
    Prop :=
  ∃ other, (other = a ∨ [other, b] <+ members) ∧ files.Starts other.dirPath b.dirPath

variable {urls : List Url}

namespace Workspace

variable {files : FileUrls} {graph : ModuleGraph} {workspace : Workspace Name}

omit [LinearOrder Name] in
lemma eq_of_inDir {a b : WorkspaceMember Name} (ha : a ∈ workspace.members)
    (hb : b ∈ workspace.members) {url : Url} (hina : files.InDir a.dirPath url)
    (hinb : files.InDir b.dirPath url) : a.packageName = b.packageName := by
  by_contra hne
  obtain ⟨path, hpath, hina⟩ := hina
  obtain ⟨path', hpath', hinb⟩ := hinb
  rw [hpath, Option.some.injEq] at hpath'
  subst hpath'
  rw [Path.startsWith_iff] at hina hinb
  rcases prefix_or_prefix_of_prefix hina hinb with h | h
  · have := workspace.apart b hb a ha (Ne.symm hne)
    rw [← Bool.not_eq_true, Path.startsWith_iff] at this
    exact this h
  · have := workspace.apart a ha b hb hne
    rw [← Bool.not_eq_true, Path.startsWith_iff] at this
    exact this h

variable (files graph workspace) in
/-- No package hides one that another package depends on. -/
def Apparent : Prop :=
  ∀ a ∈ workspace.members, ∀ b ∈ workspace.members, b.packageName ≠ a.packageName →
    DependsOn files graph a b → ¬ Hidden files workspace.members a b

structure Located (files : FileUrls) (workspace : Workspace Name)
    (roots : List (Url × WorkspaceMember Name)) : Prop where
  map_snd : roots.map Prod.snd = workspace.members
  dirUrl : ∀ root ∈ roots, files.fromFilePath root.2.dirPath = some root.1

section

variable {roots : List (Url × WorkspaceMember Name)} {root : Url × WorkspaceMember Name}

omit [LinearOrder Name] in
lemma Located.mem_members (h : workspace.Located files roots) (hroot : root ∈ roots) :
    root.2 ∈ workspace.members :=
  h.map_snd ▸ mem_map_of_mem hroot

omit [LinearOrder Name] in
lemma Located.exists_root (h : workspace.Located files roots) {member : WorkspaceMember Name}
    (hmember : member ∈ workspace.members) : ∃ root ∈ roots, root.2 = member := by
  rw [← h.map_snd] at hmember
  exact List.mem_map.mp hmember

omit [LinearOrder Name] in
lemma Located.nodup_names (h : workspace.Located files roots) :
    (roots.map fun root => root.2.packageName).Nodup := by
  have hnodup := workspace.names_nodup
  rwa [← h.map_snd, map_map] at hnodup

variable (hlocated : workspace.Located files roots)

include hlocated

omit [LinearOrder Name] in
/-- The packages that are listed before another one. -/
lemma Located.mem_before_iff {before after : List (Url × WorkspaceMember Name)}
    {b : Url × WorkspaceMember Name} (hroots : roots = before ++ b :: after)
    {other : WorkspaceMember Name} :
    [other, b.2] <+ workspace.members ↔ ∃ root ∈ before, root.2 = other := by
  have hnodup := Nodup.of_map _ workspace.names_nodup
  rw [← hlocated.map_snd, hroots] at hnodup ⊢
  rw [← List.mem_map (f := Prod.snd)]
  simp only [map_append, map_cons] at hnodup ⊢
  constructor
  · intro hsub
    obtain ⟨l, l', hl, hbefore, hafter⟩ := sublist_append_iff.mp hsub
    cases l with
    | nil =>
      obtain rfl : [other, b.2] = l' := hl
      have hmem : b.2 ∈ map Prod.snd after := hafter.tail.subset mem_cons_self
      exact absurd hmem (nodup_cons.mp (nodup_append.mp hnodup).2.1).1
    | cons x l =>
      obtain ⟨rfl, -⟩ := List.cons.inj hl
      exact hbefore.subset mem_cons_self
  · exact fun hother => (singleton_sublist.mpr hother).append (singleton_sublist.mpr mem_cons_self)

omit [LinearOrder Name] in
lemma Located.starts_iff (hroot : root ∈ roots) {b : Url × WorkspaceMember Name} (hb : b ∈ roots) :
    files.Starts root.2.dirPath b.2.dirPath ↔ root.1.asStr <+: b.1.asStr := by
  simp [FileUrls.Starts, hlocated.dirUrl root hroot, hlocated.dirUrl b hb]

omit [LinearOrder Name] in
/-- Nothing is attributed to a package that is hidden. -/
lemma not_attributed {b : Url × WorkspaceMember Name} (hroot : root ∈ roots) (hb : b ∈ roots)
    (hhidden : Hidden files workspace.members root.2 b.2) (target : Url) :
    ¬ Walk.Attributed roots root.1 target b.2.packageName := by
  rintro ⟨hout, found, hfound, hname⟩
  obtain rfl : found = b :=
    inj_on_of_nodup_map hlocated.nodup_names (mem_of_find?_eq_some hfound) hb hname
  obtain ⟨hin, before, after, hroots, hbefore⟩ := find?_eq_some_iff_append.mp hfound
  have hstarts {other : Url × WorkspaceMember Name} (hother : other ∈ roots)
      (h : files.Starts other.2.dirPath found.2.dirPath) : inDirUrl other.1 target = true :=
    isPrefixOf_iff_prefix.mpr
      (((hlocated.starts_iff hother hb).mp h).trans (List.isPrefixOf_iff_prefix.mp hin))
  obtain ⟨other, rfl | hother, h⟩ := hhidden
  · rw [hstarts hroot h] at hout
    cases hout
  · obtain ⟨other, hmem, rfl⟩ := (hlocated.mem_before_iff hroots).mp hother
    have hother := hbefore other hmem
    rw [hstarts (by simp [hroots, hmem]) h] at hother
    cases hother

variable (hspelled : Spelled files graph workspace.members)

include hspelled

omit [LinearOrder Name] in
/-- The text of a file in a package starts with the URL of another package only if the URL of its
own package does. -/
lemma inDirUrl_eq_false {a b : Url × WorkspaceMember Name} (ha : a ∈ roots) (hb : b ∈ roots)
    (hne : a.2.packageName ≠ b.2.packageName) (hstarts : ¬ files.Starts a.2.dirPath b.2.dirPath)
    {member : WorkspaceMember Name} (hmember : member ∈ workspace.members) {target : Url}
    (hmeets : Meets files graph member target) (hin : files.InDir b.2.dirPath target) :
    inDirUrl a.1 target = false := by
  rw [← Bool.not_eq_true]
  intro htext
  have htext : a.1.asStr <+: target.asStr := isPrefixOf_iff_prefix.mp htext
  have hmemA := hlocated.mem_members ha
  have hmemB := hlocated.mem_members hb
  rw [hspelled.inside b.2 hmemB b.1 (hlocated.dirUrl b hb) member hmember target hmeets] at hin
  rw [hlocated.starts_iff ha hb] at hstarts
  rcases prefix_or_prefix_of_prefix htext hin.isPrefix with h | ⟨mid, hmid⟩
  · exact hstarts h
  -- the directory of the first package would be in that of the second one
  have hbelow : Below b.1.asStr a.1.asStr := by
    rw [← hmid] at htext ⊢
    rcases hin with htarget | ⟨hslash, -⟩ | ⟨c, hc, hnext⟩
    · rw [htarget] at htext
      exact .inl ((prefix_append _ _).eq_of_length_le htext.length_le).symm
    · exact .inr (.inl ⟨hslash, prefix_append _ _⟩)
    · cases mid with
      | nil => exact .inl (append_nil _)
      | cons d mid =>
        refine .inr (.inr ⟨c, hc, ?_⟩)
        refine prefix_of_prefix_length_le hnext htext ?_
        simp
  have hstart := hspelled.dirs a.2 hmemA b.2 hmemB a.1 b.1 (hlocated.dirUrl a ha)
    (hlocated.dirUrl b hb) hbelow
  rw [workspace.apart a.2 hmemA b.2 hmemB hne] at hstart
  cases hstart

omit [LinearOrder Name] in
lemma inDirUrl_of_inDir (hroot : root ∈ roots) {member : WorkspaceMember Name}
    (hmember : member ∈ workspace.members) {target : Url} (hmeets : Meets files graph member target)
    (hin : files.InDir root.2.dirPath target) : inDirUrl root.1 target = true := by
  rw [hspelled.inside root.2 (hlocated.mem_members hroot) root.1 (hlocated.dirUrl root hroot) member
    hmember target hmeets] at hin
  exact isPrefixOf_iff_prefix.mpr hin.isPrefix

variable (happarent : workspace.Apparent files graph) (hroot : root ∈ roots) {target : Url}

include happarent hroot

omit [LinearOrder Name] in
/-- A file that is met and has the URL of the package in its text is in the package. -/
lemma inDirUrl_iff (hmeets : Meets files graph root.2 target) :
    inDirUrl root.1 target = true ↔ files.InDir root.2.dirPath target := by
  have hmember := hlocated.mem_members hroot
  refine ⟨fun htext => ?_, inDirUrl_of_inDir hlocated hspelled hroot hmember hmeets⟩
  obtain ⟨b, hb, hin⟩ := hspelled.owned root.2 hmember root.1 (hlocated.dirUrl root hroot) root.2
    hmember target hmeets htext
  by_cases hname : b.packageName = root.2.packageName
  · rwa [inj_on_of_nodup_map workspace.names_nodup hb hmember hname] at hin
  obtain ⟨b, hmem, rfl⟩ := hlocated.exists_root hb
  have hhidden := happarent root.2 hmember b.2 hb hname ⟨target, hmeets, hin⟩
  rw [inDirUrl_eq_false hlocated hspelled hroot hmem (Ne.symm hname)
    (fun h => hhidden ⟨root.2, .inl rfl, h⟩) hmember hmeets hin] at htext
  cases htext

omit [LinearOrder Name] in
/-- A file outside of the directory is attributed to the package that it is in. -/
lemma attributed_iff (hmeets : Meets files graph root.2 target) {name : Name} :
    Walk.Attributed roots root.1 target name ↔ ∃ member ∈ workspace.members,
      member.packageName ≠ root.2.packageName ∧ member.packageName = name ∧
        files.InDir member.dirPath target := by
  have hmember := hlocated.mem_members hroot
  have hown := inDirUrl_iff hlocated hspelled happarent hroot hmeets
  -- the first package that starts the text of a file is the one that the file is in
  have hfirst {b : Url × WorkspaceMember Name} (hb : b ∈ roots)
      (hne : b.2.packageName ≠ root.2.packageName) (hin : files.InDir b.2.dirPath target) :
      (roots.find? fun root => inDirUrl root.1 target) = some b := by
    have hhidden := happarent root.2 hmember b.2 (hlocated.mem_members hb) hne ⟨target, hmeets, hin⟩
    obtain ⟨before, after, hroots⟩ := append_of_mem hb
    refine find?_eq_some_iff_append.mpr ⟨inDirUrl_of_inDir hlocated hspelled hb hmember hmeets hin,
      before, after, hroots, fun other hother => ?_⟩
    have hother' : other ∈ roots := by simp [hroots, hother]
    have hnames := hlocated.nodup_names
    rw [hroots, map_append, nodup_append] at hnames
    simp only [inDirUrl_eq_false hlocated hspelled hother' hb
      (hnames.2.2 _ (mem_map_of_mem hother) _ mem_cons_self) (fun h => hhidden ⟨other.2,
        .inr ((hlocated.mem_before_iff hroots).mpr ⟨other, hother, rfl⟩), h⟩) hmember hmeets hin,
      Bool.not_false]
  constructor
  · rintro ⟨hout, found, hfound, rfl⟩
    have hmem := mem_of_find?_eq_some hfound
    obtain ⟨b, hb, hin⟩ := hspelled.owned found.2 (hlocated.mem_members hmem) found.1
      (hlocated.dirUrl found hmem) root.2 hmember target hmeets (by simpa using find?_some hfound)
    obtain ⟨b, hb', rfl⟩ := hlocated.exists_root hb
    have hne : b.2.packageName ≠ root.2.packageName := by
      intro hname
      rw [inj_on_of_nodup_map workspace.names_nodup hb hmember hname, ← hown, hout] at hin
      cases hin
    obtain rfl := Option.some.inj ((hfirst hb' hne hin).symm.trans hfound)
    exact ⟨b.2, hb, hne, rfl, hin⟩
  · rintro ⟨member, hmem, hne, rfl, hin⟩
    obtain ⟨b, hb, rfl⟩ := hlocated.exists_root hmem
    refine ⟨?_, b, hfirst hb hne hin, rfl⟩
    rw [← Bool.not_eq_true, hown]
    exact fun hin' => hne (eq_of_inDir hmem hmember hin hin')

omit [LinearOrder Name] in
/-- What the walk meets. -/
lemma meets_iff (hurls : root.2.exportValueUrls = .ok urls) :
    Meets files graph root.2 target ↔ ∃ specifier,
      Reached graph (inDirUrl root.1 · = true) (· ∈ urls) specifier ∧
        graph.FileDep specifier target := by
  constructor
  · rintro ⟨_, hurls', specifier, hreached, hdep⟩
    cases hurls.symm.trans hurls'
    refine ⟨specifier, ?_, hdep⟩
    clear hdep
    induction hreached with
    | start hurl => exact .start hurl.1
    | dep hreached hstep hin ih =>
      have hmeets : Meets files graph root.2 _ := ⟨urls, hurls, _, hreached, hstep⟩
      exact .dep ih hstep ((inDirUrl_iff hlocated hspelled happarent hroot hmeets).mpr hin)
  · rintro ⟨specifier, hreached, hdep⟩
    refine ⟨urls, hurls, specifier, ?_, hdep⟩
    induction hreached generalizing target with
    | start hurl =>
      obtain ⟨module, hmodule, -⟩ := hdep
      have hmember := hlocated.mem_members hroot
      refine .start ⟨hurl, hspelled.exports root.2 hmember urls hurls _ hurl ?_⟩
      rw [hmodule]
      rfl
    | dep hreached hstep hin ih =>
      have hmeets : Meets files graph root.2 _ := ⟨urls, hurls, _, ih hstep, hstep⟩
      exact .dep (ih hstep) hstep ((inDirUrl_iff hlocated hspelled happarent hroot hmeets).mp hin)

end

/-! ### The loop over the members -/

/-- The members that are done are in the map with packages that files are attributed to; and if no
package hides another one, with their dependencies. -/
structure Inv (files : FileUrls) (graph : ModuleGraph) (workspace : Workspace Name)
    (roots done : List (Url × WorkspaceMember Name)) (members : Members Name) : Prop where
  seen : workspace.Apparent files graph → ∀ target ∈ members.1, ∃ root ∈ done,
    files.InDir root.2.dirPath target
  keys_eq : keys members.2 = done.map fun root => root.2.packageName
  deps : ∀ root ∈ done, ∃ deps, (root.2.packageName, deps) ∈ members.2 ∧
    (∀ name ∈ deps, ∃ target, Walk.Attributed roots root.1 target name) ∧
    (workspace.Apparent files graph → ∀ name, name ∈ deps ↔ ∃ member ∈ workspace.members,
      member.packageName ≠ root.2.packageName ∧ member.packageName = name ∧
        DependsOn files graph root.2 member)
  nodup : ∀ entry ∈ members.2, entry.2.Nodup

namespace Inv

variable {roots done rest : List (Url × WorkspaceMember Name)} {root : Url × WorkspaceMember Name}
  {members : Members Name}

omit [LinearOrder Name] in
lemma start (files : FileUrls) (graph : ModuleGraph) (workspace : Workspace Name)
    (roots : List (Url × WorkspaceMember Name)) : Inv files graph workspace roots [] ([], []) where
  seen _ _ h := absurd h not_mem_nil
  keys_eq := rfl
  deps _ h := absurd h not_mem_nil
  nodup _ h := absurd h not_mem_nil

variable (h : Inv files graph workspace roots done members)
  (hlocated : workspace.Located files roots) (hspelled : Spelled files graph workspace.members)

include h hlocated hspelled

/-- Nothing that the walk meets in the directory of the next member was seen before. -/
lemma step (hroots : roots = done ++ root :: rest) (hurls : root.2.exportValueUrls = .ok urls) :
    ∃ members', addMember graph roots members root = .ok members' ∧
      Inv files graph workspace roots (done ++ [root]) members' := by
  have hroot : root ∈ roots := by simp [hroots]
  have hnew : root.2.packageName ∉ keys members.2 := by
    have hnames := hlocated.nodup_names
    rw [h.keys_eq]
    rw [hroots, map_append, nodup_append] at hnames
    exact fun hmem => hnames.2.2 _ hmem _ mem_cons_self rfl
  have hsame : remove root.2.packageName members.2 = members.2 := by
    refine List.filter_eq_self.mpr fun entry hentry => ?_
    simp only [decide_eq_true_eq]
    rintro hname
    exact hnew (hname ▸ mem_map_of_mem hentry)
  obtain ⟨hseen, hattributed, hall, hnodup⟩ :=
    Walk.run_spec graph roots root.1 urls members.1
  refine ⟨_, bind_eq_ok.mpr ⟨urls, hurls, rfl⟩, ?_, ?_, ?_, ?_⟩
  · intro happarent target htarget
    rcases hseen target htarget with hold | ⟨hown, hmet⟩
    · obtain ⟨other, hother, hin⟩ := h.seen happarent target hold
      exact ⟨other, mem_append_left _ hother, hin⟩
    · have hmeets := (meets_iff hlocated hspelled happarent hroot hurls).mpr hmet
      exact ⟨root, by simp, (inDirUrl_iff hlocated hspelled happarent hroot hmeets).mp hown⟩
  · rw [hsame, keys, map_append, map_append, ← h.keys_eq]
    rfl
  · rw [hsame, forall_mem_append, forall_mem_singleton]
    constructor
    · intro other hother
      obtain ⟨deps, hmem, hdeps⟩ := h.deps other hother
      exact ⟨deps, mem_append_left _ hmem, hdeps⟩
    refine ⟨_, mem_append_right _ (mem_singleton_self _), fun name hname => ?_, ?_⟩
    · obtain ⟨target, -, htarget⟩ := hattributed name hname
      exact ⟨target, htarget⟩
    intro happarent name
    have hmeets {target : Url} : Meets files graph root.2 target ↔ _ :=
      meets_iff hlocated hspelled happarent hroot hurls
    constructor
    · intro hname
      obtain ⟨target, hmet, htarget⟩ := hattributed name hname
      have hmet := hmeets.mpr hmet
      obtain ⟨member, hmember, hne, hname, hin⟩ :=
        (attributed_iff hlocated hspelled happarent hroot hmet).mp htarget
      exact ⟨member, hmember, hne, hname, target, hmet, hin⟩
    · rintro ⟨member, hmember, hne, hname, target, hmet, hin⟩
      have htarget := (attributed_iff hlocated hspelled happarent hroot hmet).mpr
        ⟨member, hmember, hne, hname, hin⟩
      refine hall (fun target hmet hown hbefore => ?_) target name (hmeets.mp hmet) htarget
      have hin := (inDirUrl_iff hlocated hspelled happarent hroot (hmeets.mpr hmet)).mp hown
      obtain ⟨other, hother, hin'⟩ := h.seen happarent target hbefore
      have hother' : other ∈ roots := hroots ▸ mem_append_left _ hother
      have hname := eq_of_inDir (hlocated.mem_members hother') (hlocated.mem_members hroot) hin' hin
      exact hnew (h.keys_eq ▸ hname ▸ mem_map_of_mem hother)
  · rw [hsame, forall_mem_append, forall_mem_singleton]
    exact ⟨h.nodup, hnodup⟩

lemma run (hroots : roots = done ++ rest)
    (hexports : ∀ root ∈ rest, ∃ urls, root.2.exportValueUrls = .ok urls) :
    ∃ members', rest.foldlM (addMember graph roots) members = .ok members' ∧
      Inv files graph workspace roots roots members' := by
  induction rest generalizing done members with
  | nil =>
    rw [append_nil] at hroots
    exact ⟨members, rfl, by rwa [← hroots] at h⟩
  | cons root rest ih =>
    obtain ⟨⟨urls, hurls⟩, hexports⟩ := List.forall_mem_cons.mp hexports
    obtain ⟨members', hadd, hinv⟩ := h.step hlocated hspelled hroots hurls
    obtain ⟨result, hrest, hresult⟩ := ih hinv (by simpa using hroots) hexports
    exact ⟨result, foldlM_cons_eq_ok.mpr ⟨members', hadd, hrest⟩, hresult⟩

end Inv

omit [LinearOrder Name] in
lemma exists_located (hdirs : ∀ member ∈ workspace.members,
    (files.fromFilePath member.dirPath).isSome = true) :
    ∃ roots, workspace.members.mapM (withDirUrl files) = .ok roots ∧
      workspace.Located files roots := by
  have : Nonempty Url := ⟨.file []⟩
  choose! dirUrl hdirUrl using fun member hmember =>
    Option.isSome_iff_exists.mp (hdirs member hmember)
  refine ⟨workspace.members.map fun member => (dirUrl member, member),
    mapM_eq_ok_map fun member hmember => ?_, by simp [Function.comp_def], ?_⟩
  · exact bind_eq_ok.mpr ⟨_, unwrapOption_eq_ok.mpr (hdirUrl member hmember), rfl⟩
  · rw [forall_mem_map]
    exact hdirUrl

omit [LinearOrder Name] in
lemma Inv.mem_keys {roots : List (Url × WorkspaceMember Name)} {members : Members Name}
    (h : Inv files graph workspace roots roots members) (hlocated : workspace.Located files roots) :
    keys members.2 = workspace.members.map WorkspaceMember.packageName ∧ (keys members.2).Nodup ∧
      ∀ entry ∈ members.2, ∀ dep ∈ entry.2, dep ∈ keys members.2 := by
  have hkeys : keys members.2 = workspace.members.map WorkspaceMember.packageName := by
    rw [h.keys_eq, ← hlocated.map_snd, map_map]
    rfl
  have hnodup : (keys members.2).Nodup := hkeys ▸ workspace.names_nodup
  refine ⟨hkeys, hnodup, ?_⟩
  rintro ⟨name, deps⟩ hentry dep hdep
  have hname : name ∈ keys members.2 := mem_map_of_mem hentry
  rw [h.keys_eq] at hname
  obtain ⟨root, hroot, rfl⟩ := List.mem_map.mp hname
  obtain ⟨deps', hentry', hdeps⟩ := h.deps root hroot
  obtain rfl := eq_of_mem_of_nodup hnodup hentry hentry'
  obtain ⟨_, -, found, hfound, rfl⟩ := hdeps.1 dep hdep
  exact hkeys ▸ mem_map_of_mem (hlocated.mem_members (mem_of_find?_eq_some hfound))

end Workspace

lemma addMember_eq_ok {graph : ModuleGraph} {roots : List (Url × WorkspaceMember Name)}
    {members : Members Name} {root : Url × WorkspaceMember Name} (n : ℕ)
    (hurls : root.2.exportValueUrls = .ok urls)
    (hdone : ((Walk.next graph roots root.1)^[n] ⟨members.1, urls, []⟩).pending = []) :
    addMember graph roots members root =
      .ok (((Walk.next graph roots root.1)^[n] ⟨members.1, urls, []⟩).seenModules,
        remove root.2.packageName members.2 ++ [(root.2.packageName,
          ((Walk.next graph roots root.1)^[n] ⟨members.1, urls, []⟩).deps)]) := by
  rw [← Walk.run_eq_iterate n _ hdone]
  exact bind_eq_ok.mpr ⟨urls, hurls, rfl⟩

def plainFiles : FileUrls where
  fromFilePath path := if path.isAbsolute then some (.file path.display.toList) else none
  toFilePath url :=
    if url.scheme = "file".toList then some (.ofString (String.ofList url.path)) else none

def importing (paths : List String) : JsModule where
  maybeTypesDependency := none
  dependencies := paths.map fun path => (some (.file path.toList), none)

/-- Packages by numbers, each with one export. -/
def sampleMember (number : ℕ) (dir : String) : WorkspaceMember ℕ where
  packageName := number
  dirPath := .ofString dir
  exportValueUrls := .ok [.file (dir ++ "/mod.ts").toList]

variable (first second third : String)

/-- The first package imports the second one, and the second one a third one. -/
def sampleGraph : ModuleGraph where
  modules :=
    [(.file (first ++ "/mod.ts").toList, importing [first ++ "/a.ts"]),
      (.file (first ++ "/a.ts").toList, importing [second ++ "/mod.ts"]),
      (.file (second ++ "/mod.ts").toList, importing [third ++ "/mod.ts"]),
      (.file (third ++ "/mod.ts").toList, importing [])]
  resolve := id

def sampleMembers : List (WorkspaceMember ℕ) :=
  [sampleMember 0 first, sampleMember 1 second, sampleMember 2 third]

def sampleWorkspace : Workspace ℕ where
  members := sampleMembers "/ws/ab" "/ws/b" "/ws/a"
  names_nodup := by decide +kernel
  apart := by decide +kernel

lemma ModuleGraph.FileDep.mem_targets {graph : ModuleGraph} {specifier target : Url}
    (h : graph.FileDep specifier target) : target ∈ graph.targets := by
  obtain ⟨module, hmodule, -, dep, hdep, rfl⟩ := h
  exact ModuleGraph.resolve_mem_targets hmodule hdep

/-- The second directory has the first one at the start of its name. -/
def alikeWorkspace : Workspace ℕ where
  members := sampleMembers "/ws/foo" "/ws/foo-bar" "/ws/c"
  names_nodup := by decide +kernel
  apart := by decide +kernel

def alikeGraph : ModuleGraph := sampleGraph "/ws/foo" "/ws/foo-bar" "/ws/c"

end Deno.Publish
