import Deno.Standalone.Tree
import Mathlib.Data.Finset.Card
import Mathlib.Logic.Relation

/-!
# Following symlinks

A path that ends in a symlink is noted before the symlink is followed, and a second visit is an
error. A symlink in the middle of a path is followed without a note, so one whose destination
leads through itself is followed for ever.
-/

namespace Deno

open Core List Relation

mutual

def VfsEntry.symlinks : VfsEntry → List VirtualSymlink
  | .dir _ entries => symlinksIn entries
  | .file _ => []
  | .symlink s => [s]

def symlinksIn : List VfsEntry → List VirtualSymlink
  | [] => []
  | e :: entries => e.symlinks ++ symlinksIn entries

end

/-- There is no panic, and a result has the property. -/
def Ends {α : Type} (P : α → Prop) : Except AnyError α → Prop
  | .ok a => P a
  | .error e => ∀ text, e ≠ .panic text

lemma Ends.bind {α β : Type} {P : α → Prop} {Q : β → Prop} {x : Except AnyError α}
    {f : α → Except AnyError β} (hx : Ends P x) (hf : ∀ a, P a → Ends Q (f a)) :
    Ends Q (x >>= f) := by
  cases x with
  | error e => exact hx
  | ok a => exact hf a hx

lemma Ends.imp {α : Type} {P Q : α → Prop} {x : Except AnyError α} (hx : Ends P x)
    (h : ∀ a, P a → Q a) : Ends Q x := by
  cases x with
  | error e => exact hx
  | ok a => exact h a hx

lemma ends_notFound {α : Type} (P : α → Prop) : Ends P (.error pathNotFound) := by
  simp [Ends, pathNotFound]

lemma symlinks_subset {entry : VfsEntry} {entries : List VfsEntry} (h : entry ∈ entries) :
    entry.symlinks ⊆ symlinksIn entries := by
  induction h with
  | head entries => exact subset_append_left _ _
  | tail e _ ih => exact Subset.trans ih (subset_append_right _ _)

namespace VfsRoot

section

variable (root : VfsRoot)

def symlinks : List VirtualSymlink := symlinksIn root.dir.entries

def entry : VfsEntry := .dir root.dir.name root.dir.entries

def dest (s : VirtualSymlink) : Path := s.resolveDestFromRoot root.rootPath

def names (path : Path) : Option (List String) :=
  (path.stripPrefix root.rootPath).map componentNames

/-- The names lead to the entry, and no symlink on the way has a destination that is a symlink
again. -/
inductive Leads : List String → VfsEntry → Prop where
  | root : Leads [] root.entry
  | child {names : List String} {dirName : String} {entries : List VfsEntry} {name : String}
    {entry : VfsEntry} : Leads names (.dir dirName entries) → child entries name = some entry →
      Leads (names ++ [name]) entry
  | follow {names dest : List String} {s : VirtualSymlink} {dirName : String}
    {entries : List VfsEntry} {name : String} {entry : VfsEntry} : Leads names (.symlink s) →
      root.names (root.dest s) = some dest → Leads dest (.dir dirName entries) →
      child entries name = some entry → Leads (names ++ [name]) entry

def Meets (names : List String) (s : VirtualSymlink) : Prop :=
  ∃ before name after, names = before ++ name :: after ∧ root.Leads before (.symlink s)

/-- The destination of the first symlink leads through the second one. -/
def Through (s t : VirtualSymlink) : Prop :=
  ∃ names, root.names (root.dest s) = some names ∧ root.Meets names t

/-- The destinations that are not noted. -/
def left (seen : List Path) : Finset Path := (root.symlinks.map root.dest).toFinset \ seen.toFinset

def Holds (entry : VfsEntry) : Prop :=
  entry.symlinks ⊆ root.symlinks ∧
    ∀ dirName entries, entry = .dir dirName entries → Ordered entries

/-- An entry of the tree is found: where the names lead, or with a destination noted on the way. -/
def Reaches (seen : List Path) (names : List String) (found : FoundEntry) : Prop :=
  root.Holds found.entry ∧ (found.seen = seen ∧ root.Leads names found.entry ∨
    (root.left found.seen).card < (root.left seen).card)

def Follows (findEntry : Path → List Path → Except AnyError FoundEntry) (s : VirtualSymlink)
    (seen : List Path) : Prop :=
  Ends (fun found => ∃ names, root.names (root.dest s) = some names ∧ root.Reaches seen names found)
    (findEntry (root.dest s) seen)

end

variable {root : VfsRoot} {findEntry : Path → List Path → Except AnyError FoundEntry}
variable {seen seen' : List Path} {all names : List String} {depth : ℕ} {s t : VirtualSymlink}
variable (hordered : Ordered root.dir.entries)

lemma Holds.child {dirName name : String} {entries : List VfsEntry} {entry : VfsEntry}
    (h : root.Holds (.dir dirName entries)) (hchild : Deno.child entries name = some entry) :
    root.Holds entry := by
  refine ⟨Subset.trans (symlinks_subset (mem_of_child hchild)) h.1, ?_⟩
  rintro dirName' entries' rfl
  exact (h.2 _ _ rfl).child hchild

lemma walk_of_child_none {entries : List VfsEntry} (hentries : Ordered entries) {name : String}
    (h : Deno.child entries name = none) (path : Path) (dirName : String) :
    root.walk findEntry (name :: names) ⟨path, .dir dirName entries, seen⟩ =
      .error pathNotFound := by
  have hrule := SearchRule.of_searchByName hentries name
  have hnone := find?_eq_none.mp h
  simp only [walk, dirOf, bind, Except.bind]
  generalize searchByName entries name = r at hrule
  cases hrule with
  | absent => rfl
  | found before a after hl hkey => simp_all

lemma walk_symlink (name : String) (path : Path) :
    root.walk findEntry (name :: names) ⟨path, .symlink s, seen⟩ =
      findEntry (root.dest s) seen >>= fun found => match found.entry with
        | .dir _ _ => root.walk findEntry (name :: names) found
        | _ => .error pathNotFound := by
  simp only [walk, dirOf, bind, Except.bind, dest]
  cases findEntry (s.resolveDestFromRoot root.rootPath) seen with
  | error e => rfl
  | ok found =>
    obtain ⟨path, entry, seen⟩ := found
    cases entry <;> rfl

lemma findEntryNoFollowInner_eq {path : Path} (h : root.names path = some names)
    (seen : List Path) : root.findEntryNoFollowInner findEntry path seen =
      root.walk findEntry names ⟨root.rootPath, root.entry, seen⟩ := by
  obtain ⟨rel, hrel, rfl⟩ := Option.map_eq_some_iff.mp h
  rw [findEntryNoFollowInner, hrel]
  rfl

/-- The walk over the names that are left; `before` has been walked over. -/
lemma walk_ends (hfollows : ∀ s ∈ root.symlinks, ∀ seen', seen' = seen ∧ root.Meets all s ∨
      (root.left seen').card < (root.left seen).card → root.Follows findEntry s seen')
    (before : List String) (hall : before ++ names = all) {current : FoundEntry}
    (h : root.Reaches seen before current) :
    Ends (root.Reaches seen all) (root.walk findEntry names current) := by
  induction names generalizing before current with
  | nil =>
    rw [append_nil] at hall
    exact hall ▸ h
  | cons component names ih =>
    have hdir {path : Path} {dirName : String} {entries : List VfsEntry} {now : List Path}
        (hholds : root.Holds (.dir dirName entries))
        (hchild : ∀ entry, child entries component = some entry → now = seen ∧
          root.Leads (before ++ [component]) entry ∨
            (root.left now).card < (root.left seen).card) :
        Ends (root.Reaches seen all)
          (root.walk findEntry (component :: names) ⟨path, .dir dirName entries, now⟩) := by
      cases hentry : child entries component with
      | none =>
        rw [walk_of_child_none (hholds.2 _ _ rfl) hentry]
        exact ends_notFound _
      | some entry =>
        rw [walk_of_child root findEntry (hholds.2 _ _ rfl) hentry]
        exact ih (before ++ [component]) (by simp [← hall])
          ⟨hholds.child hentry, hchild entry hentry⟩
    obtain ⟨path, entry, now⟩ := current
    obtain ⟨hholds, hreaches⟩ := h
    cases entry with
    | dir dirName entries =>
      exact hdir hholds fun entry hentry => hreaches.imp_left (And.imp_right (.child · hentry))
    | file _ => exact ends_notFound _
    | symlink s =>
      rw [walk_symlink]
      refine (hfollows s (hholds.1 mem_cons_self) now (hreaches.imp_left (And.imp_right
        fun hleads => ⟨before, component, names, hall.symm, hleads⟩))).bind ?_
      rintro ⟨path, entry, after⟩ ⟨dest, hdest, hfound, hdestReaches⟩
      cases entry with
      | file _ | symlink _ => exact ends_notFound _
      | dir dirName entries =>
        refine hdir hfound fun entry hentry => ?_
        -- nothing is noted, or the walk or the destination notes something
        rcases hreaches with ⟨rfl, hleads⟩ | hlt <;>
          rcases hdestReaches with ⟨rfl, hdestLeads⟩ | hlt'
        · exact .inl ⟨rfl, .follow hleads hdest hdestLeads hentry⟩
        · exact .inr hlt'
        · exact .inr hlt
        · exact .inr (hlt'.trans hlt)

include hordered

lemma findEntryNoFollowInner_ends (path : Path) (seen : List Path)
    (hfollows : ∀ s ∈ root.symlinks, ∀ seen',
      seen' = seen ∧ (∃ names, root.names path = some names ∧ root.Meets names s) ∨
        (root.left seen').card < (root.left seen).card → root.Follows findEntry s seen') :
    Ends (fun found => ∃ names, root.names path = some names ∧ root.Reaches seen names found)
      (root.findEntryNoFollowInner findEntry path seen) := by
  cases hnames : root.names path with
  | none =>
    rw [findEntryNoFollowInner, Option.map_eq_none_iff.mp hnames]
    exact ends_notFound _
  | some names =>
    have hroot : root.Holds root.entry := by
      refine ⟨Subset.refl _, ?_⟩
      rintro _ _ ⟨⟩
      exact hordered
    rw [findEntryNoFollowInner_eq hnames]
    refine (walk_ends (fun s hs seen' h => hfollows s hs seen' (h.imp_left (And.imp_right ?_))) []
      rfl ⟨hroot, .inl ⟨rfl, .root⟩⟩).imp fun found hfound => ⟨names, rfl, hfound⟩
    exact fun hmeets => ⟨names, hnames, hmeets⟩

omit hordered

/-! ### No symlink leads through itself -/

variable (root) in
open Classical in
/-- The number of symlinks that the destination leads through, directly or not. -/
noncomputable def rank (s : VirtualSymlink) : ℕ :=
  (root.symlinks.toFinset.filter (TransGen root.Through s)).card

lemma rank_le (root : VfsRoot) (s : VirtualSymlink) : root.rank s ≤ root.symlinks.length :=
  by classical exact (Finset.card_filter_le _ _).trans (toFinset_card_le _)

lemma card_left_le (root : VfsRoot) (seen : List Path) :
    (root.left seen).card ≤ root.symlinks.length := by
  refine (Finset.card_le_card Finset.sdiff_subset).trans ((toFinset_card_le _).trans ?_)
  rw [length_map]

lemma card_left_cons_lt (hs : s ∈ root.symlinks) (hseen : root.dest s ∉ seen) :
    (root.left (root.dest s :: seen)).card < (root.left seen).card := by
  refine Finset.card_lt_card (Finset.ssubset_iff_of_subset ?_ |>.mpr ⟨root.dest s, ?_⟩)
  · exact Finset.sdiff_subset_sdiff (Finset.Subset.refl _) (by simp)
  · simp only [left, Finset.mem_sdiff, mem_toFinset]
    exact ⟨⟨mem_map_of_mem hs, hseen⟩, by simp⟩

variable (hacyclic : ∀ s, ¬ TransGen root.Through s s)

include hacyclic

lemma rank_lt (ht : t ∈ root.symlinks) (h : root.Through s t) : root.rank t < root.rank s := by
  classical
  refine Finset.card_lt_card (Finset.ssubset_iff_of_subset ?_ |>.mpr ⟨t, ?_⟩)
  · exact Finset.monotone_filter_right _ fun u _ hu => hu.head h
  · simp [ht, TransGen.single h, hacyclic t]

include hordered

/-- A destination is noted, or the next symlink leads through fewer ones. -/
lemma follows_findEntryInner (hs : s ∈ root.symlinks)
    (hdepth : (root.left seen).card * (root.symlinks.length + 1) + root.rank s < depth) :
    root.Follows (root.findEntryInner depth) s seen := by
  induction depth generalizing s seen with
  | zero => cases hdepth
  | succ depth ih =>
    have hnoted {t : VirtualSymlink} (ht : t ∈ root.symlinks) {seen' : List Path}
        (hlt : (root.left seen').card < (root.left seen).card) :
        root.Follows (root.findEntryInner depth) t seen' := by
      refine ih ht ?_
      have := Nat.mul_le_mul_right (root.symlinks.length + 1) hlt
      rw [Nat.succ_mul] at this
      have := root.rank_le t
      omega
    refine (findEntryNoFollowInner_ends hordered (root.dest s) seen ?_).bind ?_
    · rintro t ht seen' (⟨rfl, hthrough⟩ | hlt)
      · have := rank_lt hacyclic ht hthrough
        exact ih ht (by omega)
      · exact hnoted ht hlt
    rintro ⟨path, entry, now⟩ ⟨names, hnames, hfound⟩
    cases entry with
    | dir _ _ | file _ => exact ⟨names, hnames, hfound⟩
    | symlink t =>
      simp only
      split_ifs with hmem
      · simp [Ends]
      · have hnow : (root.left (root.dest s :: now)).card < (root.left seen).card := by
          have hcons := card_left_cons_lt hs hmem
          rcases hfound.2 with ⟨rfl, -⟩ | hlt
          · exact hcons
          · exact hcons.trans hlt
        refine (hnoted (hfound.1.1 mem_cons_self) hnow).imp ?_
        rintro found ⟨_, -, hholds, hseen⟩
        refine ⟨names, hnames, hholds, .inr ?_⟩
        rcases hseen with ⟨hseen, -⟩ | hlt
        · rwa [hseen]
        · exact hlt.trans hnow

variable (root) in
omit hacyclic hordered in
/-- Room for every destination to be noted, and for every symlink between two notes. -/
def enough : ℕ := (root.symlinks.length + 1) * (root.symlinks.length + 1)

lemma follows_of_enough (hdepth : root.enough ≤ depth) (s : VirtualSymlink)
    (hs : s ∈ root.symlinks) (seen : List Path) :
    root.Follows (root.findEntryInner depth) s seen := by
  refine follows_findEntryInner hordered hacyclic hs ?_
  have := Nat.mul_le_mul_right (root.symlinks.length + 1) (root.card_left_le seen)
  have := root.rank_le s
  rw [enough, Nat.succ_mul] at hdepth
  omega

omit hacyclic

lemma findEntryInner_ends (hfollows : ∀ s ∈ root.symlinks, ∀ seen,
      root.Follows (root.findEntryInner depth) s seen) (path : Path) (seen : List Path) :
    Ends (fun _ => True) (root.findEntryInner (depth + 1) path seen) := by
  refine (findEntryNoFollowInner_ends hordered path seen fun s hs seen' _ =>
    hfollows s hs seen').bind ?_
  rintro ⟨path', entry, seen'⟩ ⟨_, -, hfound⟩
  cases entry with
  | dir _ _ | file _ => trivial
  | symlink t =>
    simp only
    split_ifs with hmem
    · simp [Ends]
    · exact (hfollows t (hfound.1.1 mem_cons_self) _).imp fun _ _ => trivial

/-! ### A symlink leads through itself -/

lemma Leads.ordered {entry : VfsEntry} (h : root.Leads names entry) {dirName : String}
    {entries : List VfsEntry} (hentry : entry = .dir dirName entries) : Ordered entries := by
  induction h generalizing dirName entries with
  | root =>
    cases hentry
    exact hordered
  | child _ hchild ih | follow _ _ _ hchild _ ih =>
    subst hentry
    exact (ih rfl).child hchild

/-- The walk comes to where the names lead, if the stack is deep enough. -/
lemma Leads.walk {entry : VfsEntry} (h : root.Leads names entry) (rest : List String) (depth : ℕ) :
    root.walk (root.findEntryInner depth) (names ++ rest) ⟨root.rootPath, root.entry, seen⟩ =
        .error (.panic "stack overflow") ∨
      ∃ path, root.walk (root.findEntryInner depth) (names ++ rest)
          ⟨root.rootPath, root.entry, seen⟩ =
        root.walk (root.findEntryInner depth) rest ⟨path, entry, seen⟩ := by
  induction h generalizing rest depth with
  | root => exact .inr ⟨root.rootPath, rfl⟩
  | @child names dirName entries name entry hnames hchild ih =>
    rw [append_assoc]
    refine (ih (name :: rest) depth).imp_right ?_
    rintro ⟨path, hwalk⟩
    exact ⟨_, hwalk.trans
      (walk_of_child _ _ (hnames.ordered hordered rfl) hchild path dirName seen)⟩
  | @follow names dest s dirName entries name entry hnames hdest hdir hchild ih ihDest =>
    rw [append_assoc]
    rcases ih (name :: rest) depth with hover | ⟨path, hwalk⟩
    · exact .inl hover
    rw [singleton_append, hwalk, walk_symlink]
    cases depth with
    | zero => exact .inl rfl
    | succ depth =>
      rw [findEntryInner, findEntryNoFollowInner_eq hdest seen]
      rcases ihDest [] depth with hover | ⟨path', hwalk'⟩
      · rw [append_nil] at hover
        exact .inl (by rw [hover]; rfl)
      · rw [append_nil] at hwalk'
        rw [hwalk']
        exact .inr ⟨_, walk_of_child _ _ (hdir.ordered hordered rfl) hchild path' dirName seen⟩

lemma findEntryInner_overflow (h : TransGen root.Through s s) (depth : ℕ) (seen : List Path) :
    root.findEntryInner depth (root.dest s) seen = .error (.panic "stack overflow") := by
  induction depth generalizing s with
  | zero => rfl
  | succ depth ih =>
    obtain ⟨t, hthrough, hback⟩ := TransGen.head'_iff.mp h
    have hcycle : TransGen root.Through t t := .tail' hback hthrough
    obtain ⟨_, hnames, before, name, after, rfl, hleads⟩ := hthrough
    rw [findEntryInner, findEntryNoFollowInner_eq hnames seen]
    rcases hleads.walk hordered (name :: after) depth with hover | ⟨path, hwalk⟩
    · rw [hover]
      rfl
    · rw [hwalk, walk_symlink, ih hcycle]
      rfl

end VfsRoot

/-- Every lookup ends, on a stack that is deep enough, exactly if no symlink has a destination that
leads through the symlink itself, directly or by others. -/
theorem FileBackedVfs.lookups_end_iff {vfs : FileBackedVfs}
    (hordered : Ordered vfs.fsRoot.dir.entries) :
    (∀ path, ∃ depth, Ends (fun _ => True) (vfs.fsRoot.findEntry depth path) ∧
      Ends (fun _ => True) (vfs.fsRoot.findEntryNoFollow depth path) ∧
      Ends (fun _ => True) (vfs.stat depth path) ∧ Ends (fun _ => True) (vfs.lstat depth path) ∧
      Ends (fun _ => True) (vfs.canonicalize depth path)) ↔
      ∀ s, ¬ TransGen vfs.fsRoot.Through s s := by
  refine ⟨fun hends s hcycle => ?_, fun hacyclic path => ?_⟩
  · obtain ⟨depth, hfind, -⟩ := hends (vfs.fsRoot.dest s)
    rw [VfsRoot.findEntry, VfsRoot.findEntryInner_overflow hordered hcycle] at hfind
    exact hfind _ rfl
  · have hfollows {depth : ℕ} (hdepth : vfs.fsRoot.enough ≤ depth) :=
      VfsRoot.follows_of_enough hordered hacyclic hdepth
    refine ⟨vfs.fsRoot.enough + 1, ?_⟩
    have hfind := VfsRoot.findEntryInner_ends hordered (hfollows (Nat.le_refl _)) path []
    have hnoFollow := VfsRoot.findEntryNoFollowInner_ends hordered path []
      fun s hs seen _ => hfollows (Nat.le_succ _) s hs seen
    have hfind : Ends (fun _ => True) (vfs.fsRoot.findEntry _ path) :=
      hfind.bind fun _ _ => trivial
    have hnoFollow : Ends (fun _ => True) (vfs.fsRoot.findEntryNoFollow _ path) :=
      hnoFollow.bind fun _ _ => trivial
    exact ⟨hfind, hnoFollow, hfind.bind fun _ _ => trivial, hnoFollow.bind fun _ _ => trivial,
      hfind.bind fun _ _ => trivial⟩

def linkedVfs (destParts : List String) : FileBackedVfs :=
  ⟨[], ⟨⟨"r", [.symlink ⟨"a", destParts⟩]⟩, .ofString "/r", 0⟩⟩

lemma ordered_linkedVfs (destParts : List String) :
    Ordered (linkedVfs destParts).fsRoot.dir.entries := by
  refine ordered_of_children (pairwise_singleton _ _) fun name dirName sub hchild => ?_
  cases mem_singleton.mp (mem_of_child hchild)

theorem FileBackedVfs.lookups_end_iff_circular :
    (linkedVfs ["a"]).fsRoot.findEntry 3 (.ofString "/r/a") =
      .error (.custom "Error" "circular symlinks") ∧
    ∀ path, ∃ depth, Ends (fun _ => True) ((linkedVfs ["a"]).fsRoot.findEntry depth path) := by
  have hleads {names : List String} {entry : VfsEntry}
      (h : (linkedVfs ["a"]).fsRoot.Leads names entry) :
      entry = (linkedVfs ["a"]).fsRoot.entry ∨ names ≠ [] ∧ entry = .symlink ⟨"a", ["a"]⟩ := by
    induction h with
    | root => exact .inl rfl
    | child _ hchild ih | follow _ _ _ hchild _ ih =>
      obtain ⟨rfl, rfl⟩ : _ ∧ _ := VfsEntry.dir.inj (ih.resolve_right (by simp))
      exact .inr ⟨by simp, mem_singleton.mp (mem_of_child hchild)⟩
  have hacyclic (s : VirtualSymlink) : ¬ TransGen (linkedVfs ["a"]).fsRoot.Through s s := by
    intro hcycle
    obtain ⟨_, -, _, _, before, _, _, _, hlast⟩ := TransGen.tail'_iff.mp hcycle
    obtain ⟨-, ⟨⟩⟩ := (hleads hlast).resolve_left nofun
    obtain ⟨_, ⟨_, hnames, before, name, after, rfl, hfirst⟩, -⟩ := TransGen.head'_iff.mp hcycle
    have hnames : ["a"] = before ++ name :: after := Option.some.inj hnames
    cases before with
    | nil => exact ((hleads hfirst).resolve_left nofun).1 rfl
    | cons _ _ => simp at hnames
  exact ⟨rfl, fun path => ((lookups_end_iff (ordered_linkedVfs ["a"])).mpr hacyclic path).imp
    fun _ h => h.1⟩

/-- A symlink whose destination leads through itself is followed on any stack. -/
theorem FileBackedVfs.link_below_itself : ¬∃ depth, Ends (fun _ => True)
      ((linkedVfs ["a", "b"]).fsRoot.findEntry depth (.ofString "/r/a/b")) := by
  rintro ⟨depth, h⟩
  have : ∀ seen, (linkedVfs ["a", "b"]).fsRoot.findEntryInner depth (.ofString "/r/a/b") seen =
      .error (.panic "stack overflow") := by
    clear h
    induction depth with
    | zero => exact fun _ => rfl
    | succ depth ih =>
      intro seen
      change ((VfsRoot.findEntryInner _ depth (.ofString "/r/a/b") seen >>= _) >>= _) >>= _ = _
      rw [ih]
      rfl
  rw [VfsRoot.findEntry, this] at h
  exact h _ rfl

end Deno
