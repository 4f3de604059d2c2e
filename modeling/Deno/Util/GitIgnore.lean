import Deno.Core.Machine
import Deno.Core.Path
import Deno.Core.Replace
import Deno.Core.Split

/-!
# Ignored files

A `GitIgnoreTree` finds the `.gitignore` files that apply to a path: that of its directory and those
of the directories above, up to the root of the repository. What was found for a directory is kept.
-/

namespace Deno.GitIgnore

open Core

/-! ### The tree -/

inductive Match where
  | none
  | ignore
  | whitelist
  deriving DecidableEq

/-- The `gitignore` module of the `ignore` crate: a builder takes the lines of a file one by one,
and can reject a line. -/
structure GitignoreCrate (Builder Gitignore : Type) where
  new : Path → Builder
  addLine : Builder → List Char → Builder × Bool
  build : Builder → Option Gitignore
  matched : Gitignore → Path → Bool → Match

structure FileSystem where
  existsSync : Path → Bool
  readTextFileSync : Path → Option (List Char)

/-- The `.gitignore` file of a directory and those of the directories above. -/
inductive DirGitIgnores (Gitignore : Type) where
  | mk (current : Option Gitignore) (parent : Option (DirGitIgnores Gitignore))

variable {Builder Gitignore : Type}

def DirGitIgnores.isIgnored (crate : GitignoreCrate Builder Gitignore) (path : Path)
    (isDir : Bool) : DirGitIgnores Gitignore → Bool
  | mk current parent =>
    let isIgnored := match parent with
      | none => false
      | some parent => isIgnored crate path isDir parent
    match current with
    | none => isIgnored
    | some current =>
      match crate.matched current path isDir with
      | .none => isIgnored
      | .ignore => true
      | .whitelist => false

/-- The fields of a `GitIgnoreTree` that never change, with the crate it uses. -/
structure GitIgnoreTree (Builder Gitignore : Type) where
  crate : GitignoreCrate Builder Gitignore
  fs : FileSystem
  includePaths : List Path

/-- The field that does: what was found for each directory so far. -/
abbrev Ignores (Gitignore : Type) := Path → Option (Option (DirGitIgnores Gitignore))

def Ignores.insert (ignores : Ignores Gitignore) (dirPath : Path)
    (resolved : Option (DirGitIgnores Gitignore)) : Ignores Gitignore :=
  fun path => if path = dirPath then some resolved else ignores path

/-- `str::lines`: a line ends at a line feed, with a carriage return before it or not. -/
def lines (text : List Char) : List (List Char) :=
  let parts := text.splitOn '\n'
  let ended := parts.dropLast.map fun line =>
    if line.getLast? = some '\r' then line.dropLast else line
  ended ++ parts.getLast?.toList.filter (· ≠ [])

def gitDir : Path := .ofString ".git"

def gitignoreFile : Path := .ofString ".gitignore"

namespace GitIgnoreTree

variable (tree : GitIgnoreTree Builder Gitignore)

def addLines : Builder → List (List Char) → Option Builder
  | builder, [] => some builder
  | builder, line :: lines =>
    match tree.crate.addLine builder line with
    | (builder, true) => addLines builder lines
    | (_, false) => none

/-- The lines that take a path of the command line out again. -/
def includeLines (dirPath path : Path) : List (List Char) :=
  match path.stripPrefix dirPath with
  | none => []
  | some suffix =>
    let suffix := replaceAll '\\' ['/'] suffix.display.toList
    let line := '!' :: '/' :: suffix
    line :: if suffix.getLast? = some '/' then [] else [line ++ ['/']]

def readGitignore (dirPath : Path) : Option Gitignore := do
  let text ← tree.fs.readTextFileSync (dirPath.join gitignoreFile)
  let builder ← tree.addLines (tree.crate.new dirPath) (lines text)
  let included := (tree.includePaths.flatMap (includeLines dirPath)).foldl
    (fun builder line => (tree.crate.addLine builder line).1) builder
  tree.crate.build included

/-- What is known of a directory, from its own file and from the directories above. -/
def combine (parent : Option (DirGitIgnores Gitignore)) (current : Option Gitignore) :
    Option (DirGitIgnores Gitignore) :=
  if parent.isNone && current.isNone then none else some ⟨current, parent⟩

/-- The search stops above the root of a repository. -/
def stops (maybeParent : Option Path) : Bool :=
  maybeParent.any fun parent => tree.fs.existsSync (parent.join gitDir)

mutual

def getResolvedGitIgnoreInner (ignores : Ignores Gitignore) (dirPath : Path)
    (maybeParent : Option Path) : Option (DirGitIgnores Gitignore) × Ignores Gitignore :=
  match ignores dirPath with
  | some resolved => (resolved, ignores)
  | none =>
    let (resolved, ignores) := resolveGitignoreInDir ignores dirPath maybeParent
    (resolved, ignores.insert dirPath resolved)
termination_by (dirPath.comps.length, 1)

def resolveGitignoreInDir (ignores : Ignores Gitignore) (dirPath : Path)
    (maybeParent : Option Path) : Option (DirGitIgnores Gitignore) × Ignores Gitignore :=
  if tree.stops maybeParent then (none, ignores)
  else
    match _h : dirPath.parent with
    | none => (combine none (tree.readGitignore dirPath), ignores)
    | some parent =>
      let (resolved, ignores) := getResolvedGitIgnoreInner ignores parent (some dirPath)
      (combine resolved (tree.readGitignore dirPath), ignores)
termination_by (dirPath.comps.length, 0)
decreasing_by exact Prod.Lex.left _ _ (Path.length_parent _h)

end

section

variable (ignores : Ignores Gitignore)

def getResolvedGitIgnoreForDir (dirPath : Path) :
    Option (DirGitIgnores Gitignore) × Ignores Gitignore :=
  match dirPath.parent with
  | none => (none, ignores)
  | some parent => tree.getResolvedGitIgnoreInner ignores parent (some dirPath)

def getResolvedGitIgnoreForFile (filePath : Path) :
    Option (DirGitIgnores Gitignore) × Ignores Gitignore :=
  match filePath.parent with
  | none => (none, ignores)
  | some dirPath => tree.getResolvedGitIgnoreInner ignores dirPath none

inductive Call where
  | forDir (dirPath : Path)
  | forFile (filePath : Path)

def answer : Call → Option (DirGitIgnores Gitignore) × Ignores Gitignore
  | .forDir dirPath => tree.getResolvedGitIgnoreForDir ignores dirPath
  | .forFile filePath => tree.getResolvedGitIgnoreForFile ignores filePath

end

def fresh : Ignores Gitignore := fun _ => none

def machine : Machine (Ignores Gitignore) Call where
  step ignores call := (tree.answer ignores call).2

/-! ### The search without what is kept -/

/-- What is found for a directory when nothing is kept. -/
def search (dirPath : Path) (maybeParent : Option Path) : Option (DirGitIgnores Gitignore) :=
  if tree.stops maybeParent then none
  else
    match _h : dirPath.parent with
    | none => combine none (tree.readGitignore dirPath)
    | some parent => combine (search parent (some dirPath)) (tree.readGitignore dirPath)
termination_by dirPath.comps.length
decreasing_by exact Path.length_parent _h

variable {tree} {ignores : Ignores Gitignore} {dirPath : Path} {maybeParent : Option Path}

section

variable (h : ¬ tree.stops maybeParent)

include h

lemma search_of_parent {parent : Path}
    (hparent : dirPath.parent = some parent) : tree.search dirPath maybeParent =
      combine (tree.search parent (some dirPath)) (tree.readGitignore dirPath) := by
  rw [search, if_neg h]
  split <;> simp_all

lemma search_of_root (hparent : dirPath.parent = none) :
    tree.search dirPath maybeParent = combine none (tree.readGitignore dirPath) := by
  rw [search, if_neg h]
  split <;> simp_all

lemma search_of_not_stops : tree.search dirPath maybeParent = tree.search dirPath none := by
  rw [search, if_neg h, search, if_neg (by simp [stops])]

end

variable {resolved : Option (DirGitIgnores Gitignore)}

lemma getResolvedGitIgnoreInner_of_known (h : ignores dirPath = some resolved) :
    tree.getResolvedGitIgnoreInner ignores dirPath maybeParent = (resolved, ignores) := by
  rw [getResolvedGitIgnoreInner, h]

lemma getResolvedGitIgnoreInner_of_unknown (h : ignores dirPath = none) :
    tree.getResolvedGitIgnoreInner ignores dirPath maybeParent =
      ((tree.resolveGitignoreInDir ignores dirPath maybeParent).1,
        (tree.resolveGitignoreInDir ignores dirPath maybeParent).2.insert dirPath
          (tree.resolveGitignoreInDir ignores dirPath maybeParent).1) := by
  rw [getResolvedGitIgnoreInner, h]

/-- Where nothing is kept of a directory and of those above, the search is made in full. -/
lemma getResolvedGitIgnoreInner_eq_search
    (h : ∀ path : Path, path.comps.length ≤ dirPath.comps.length → ignores path = none) :
    (tree.getResolvedGitIgnoreInner ignores dirPath maybeParent).1 =
      tree.search dirPath maybeParent := by
  induction dirPath using Path.parent_induction generalizing maybeParent with
  | step dirPath ih =>
    rw [getResolvedGitIgnoreInner_of_unknown (h dirPath le_rfl), resolveGitignoreInDir, search]
    split_ifs with hstops
    · rfl
    · split
      · rfl
      · next parent hparent =>
        have hlt := Path.length_parent hparent
        dsimp only
        rw [ih parent hparent fun path hle => h path (hle.trans hlt.le)]

lemma getResolvedGitIgnoreForFile_fresh {filePath : Path} (h : filePath.parent = some dirPath) :
    (tree.getResolvedGitIgnoreForFile fresh filePath).1 = tree.search dirPath none := by
  rw [getResolvedGitIgnoreForFile, h]
  exact getResolvedGitIgnoreInner_eq_search fun _ _ => rfl

variable (tree) in
/-- The directories from one up to the root of its repository. -/
inductive UpToRoot : Path → Path → Prop
  | self {dirPath : Path} : UpToRoot dirPath dirPath
  | up {dirPath parent above : Path} (hgit : ¬ tree.fs.existsSync (dirPath.join gitDir))
      (hparent : dirPath.parent = some parent) (habove : UpToRoot parent above) :
      UpToRoot dirPath above

lemma combine_eq_none_iff {current : Option Gitignore} :
    combine resolved current = none ↔ resolved = none ∧ current = none := by
  cases resolved <;> cases current <;> simp [combine]

lemma search_eq_none_iff : tree.search dirPath none = none ↔
    ∀ above, tree.UpToRoot dirPath above → tree.readGitignore above = none := by
  induction dirPath using Path.parent_induction with
  | step dirPath ih =>
    rw [search, if_neg (by simp [stops])]
    split
    · next hparent =>
      rw [combine_eq_none_iff, and_iff_right rfl]
      refine ⟨fun hread above habove => ?_, fun h => h _ .self⟩
      cases habove with
      | self => exact hread
      | up _ hparent' _ => cases hparent.symm.trans hparent'
    · next parent hparent =>
      have hup : tree.search parent (some dirPath) = none ↔
          (¬ tree.stops (some dirPath) → tree.search parent none = none) := by
        by_cases hstops : tree.stops (some dirPath)
        · rw [search, if_pos hstops]
          simp [hstops]
        · rw [search_of_not_stops hstops, imp_iff_right hstops]
      rw [combine_eq_none_iff, hup, ih parent hparent]
      constructor
      · rintro ⟨hparents, hread⟩ above (_ | ⟨hgit, hparent', habove⟩)
        · exact hread
        · cases hparent.symm.trans hparent'
          exact hparents hgit above habove
      · exact fun h => ⟨fun hgit above habove => h above (.up hgit hparent habove), h _ .self⟩

/-! ### What is kept -/

variable (tree)

/-- What is kept of a directory is what is found from a file in it. -/
def Sound (ignores : Ignores Gitignore) : Prop :=
  ∀ dirPath resolved, ignores dirPath = some resolved → resolved = tree.search dirPath none

/-- No directory above a repository has anything to ignore. -/
def Outermost : Prop :=
  ∀ child dirPath : Path, child.parent = some dirPath → tree.stops (some child) →
    tree.search dirPath none = none

variable {tree}

lemma Sound.insert (h : tree.Sound ignores) (hresolved : resolved = tree.search dirPath none) :
    tree.Sound (ignores.insert dirPath resolved) := by
  intro path other hother
  rw [Ignores.insert] at hother
  split_ifs at hother with heq
  · rw [← Option.some.inj hother, heq, hresolved]
  · exact h path other hother

/-- The child that the search comes from makes no difference. -/
lemma Outermost.search_eq (h : tree.Outermost)
    (hchild : ∀ child ∈ maybeParent, child.parent = some dirPath) :
    tree.search dirPath maybeParent = tree.search dirPath none := by
  by_cases hstops : tree.stops maybeParent
  · cases maybeParent with
    | none => rfl
    | some child => rw [search, if_pos hstops, h child dirPath (hchild child rfl) hstops]
  · exact search_of_not_stops hstops

/-- One search of the directories above keeps the invariant. -/
lemma Sound.getResolvedGitIgnoreInner (houter : tree.Outermost) (h : tree.Sound ignores)
    (hchild : ∀ child ∈ maybeParent, child.parent = some dirPath) :
    (tree.getResolvedGitIgnoreInner ignores dirPath maybeParent).1 = tree.search dirPath none ∧
      tree.Sound (tree.getResolvedGitIgnoreInner ignores dirPath maybeParent).2 := by
  induction dirPath using Path.parent_induction generalizing maybeParent with
  | step dirPath ih =>
    cases hknown : ignores dirPath with
    | some resolved =>
      rw [getResolvedGitIgnoreInner_of_known hknown]
      exact ⟨h _ _ hknown, h⟩
    | none =>
      rw [getResolvedGitIgnoreInner_of_unknown hknown]
      suffices hdir : (tree.resolveGitignoreInDir ignores dirPath maybeParent).1 =
          tree.search dirPath maybeParent ∧
          tree.Sound (tree.resolveGitignoreInDir ignores dirPath maybeParent).2 by
        rw [houter.search_eq hchild] at hdir
        exact ⟨hdir.1, hdir.2.insert hdir.1⟩
      rw [resolveGitignoreInDir, search]
      split_ifs with hstops
      · exact ⟨rfl, h⟩
      · split
        · exact ⟨rfl, h⟩
        · next parent hparent =>
          have hup : ∀ child ∈ some dirPath, child.parent = some parent := by
            rintro _ ⟨⟩
            exact hparent
          obtain ⟨hresolved, hsound⟩ := ih parent hparent hup
          dsimp only
          rw [hresolved, houter.search_eq hup]
          exact ⟨rfl, hsound⟩

/-- What a call is answered when the search is made in full. -/
def searchFor (tree : GitIgnoreTree Builder Gitignore) : Call → Option (DirGitIgnores Gitignore)
  | .forDir path | .forFile path => path.parent.bind fun dirPath => tree.search dirPath none

lemma Sound.answer (houter : tree.Outermost) (h : tree.Sound ignores) (call : Call) :
    (tree.answer ignores call).1 = tree.searchFor call ∧
      tree.Sound (tree.answer ignores call).2 := by
  cases call with
  | forDir dirPath =>
    simp only [GitIgnoreTree.answer, getResolvedGitIgnoreForDir, searchFor]
    cases hparent : dirPath.parent with
    | none => exact ⟨rfl, h⟩
    | some parent =>
      refine h.getResolvedGitIgnoreInner houter ?_
      rintro _ ⟨⟩
      exact hparent
  | forFile filePath =>
    simp only [GitIgnoreTree.answer, getResolvedGitIgnoreForFile, searchFor]
    cases filePath.parent with
    | none => exact ⟨rfl, h⟩
    | some parent => exact h.getResolvedGitIgnoreInner houter (by simp)

lemma sound_fresh (tree : GitIgnoreTree Builder Gitignore) : tree.Sound fresh := by
  intro dirPath resolved h
  cases h

lemma Sound.run (houter : tree.Outermost) (calls : List Call) :
    tree.Sound (tree.machine.run fresh calls) :=
  Machine.run_invariant (fun _ call h => (h.answer houter call).2) (sound_fresh tree) calls

/-- Asking for a repository leaves nothing to ignore in the directory it is in. -/
lemma answer_forFile_after_forDir {child filePath : Path} (hstops : tree.stops (some child))
    (hparent : filePath.parent = child.parent) :
    (tree.answer (tree.machine.run fresh [.forDir child]) (.forFile filePath)).1 = none := by
  simp only [Machine.run, machine, answer, getResolvedGitIgnoreForDir, getResolvedGitIgnoreForFile,
    hparent]
  cases child.parent with
  | none => rfl
  | some dirPath =>
    have hknown : (tree.getResolvedGitIgnoreInner fresh dirPath (some child)).2 dirPath =
        some none := by
      rw [getResolvedGitIgnoreInner_of_unknown rfl, resolveGitignoreInDir,
        if_pos hstops]
      simp [Ignores.insert]
    dsimp only
    rw [getResolvedGitIgnoreInner_of_known hknown]

/-- The answers do not depend on the calls before exactly when no `.gitignore` can be read from the
directory of a path with a `.git` in it up to the root of the next repository. -/
theorem answer_run_eq_fresh_iff (tree : GitIgnoreTree Builder Gitignore) :
    (∀ calls call, (tree.answer (tree.machine.run fresh calls) call).1 =
      (tree.answer fresh call).1) ↔
    ∀ child dirPath : Path, tree.fs.existsSync (child.join gitDir) → child.parent = some dirPath →
      ∀ above, tree.UpToRoot dirPath above → tree.readGitignore above = none := by
  constructor
  · intro h child dirPath hgit hparent
    have hfile := h [.forDir child] (.forFile child)
    rw [answer_forFile_after_forDir hgit rfl, answer,
      getResolvedGitIgnoreForFile_fresh hparent] at hfile
    exact search_eq_none_iff.mp hfile.symm
  · intro h
    have houter : tree.Outermost := fun child dirPath hparent hstops =>
      search_eq_none_iff.mpr (h child dirPath hstops hparent)
    intro calls call
    rw [((Sound.run houter calls).answer houter call).1, ((sound_fresh tree).answer houter call).1]

/-- A crate that reads each line as the last name of a path. -/
def namesCrate : GitignoreCrate (List (List Char)) (List (List Char)) where
  new _ := []
  addLine names line := (line :: names, true)
  build names := some names
  matched names path _ :=
    if names.contains ((path.fileName.getD "").toList) then .ignore else .none

/-- A directory with a `.gitignore`, and a repository in it. -/
def nestedRepository : GitIgnoreTree (List (List Char)) (List (List Char)) where
  crate := namesCrate
  fs :=
    { existsSync := fun path => path = .ofString "/ws/sub/.git"
      readTextFileSync := fun path =>
        if path = .ofString "/ws/.gitignore" then some "log".toList else none }
  includePaths := []

/-- A file next to a repository is ignored, and no longer once the repository was asked for. -/
theorem answer_nestedRepository : let file : Call := .forFile (.ofString "/ws/log")
    let isIgnored := fun calls => ((nestedRepository.answer
      (nestedRepository.machine.run fresh calls) file).1.map fun ignores =>
        ignores.isIgnored namesCrate (.ofString "/ws/log") false)
    isIgnored [] = some true ∧ isIgnored [.forDir (.ofString "/ws/sub")] = none := by
  intro file isIgnored
  constructor
  · have hws : (Path.ofString "/ws/log").parent = some (.ofString "/ws") := by decide
    have hroot : (Path.ofString "/ws").parent = some (.ofString "/") := by decide
    have hnone : nestedRepository.search (.ofString "/") (some (.ofString "/ws")) = none := by
      rw [search_of_root (by decide) (by decide)]
      rfl
    have hfound : (nestedRepository.answer fresh file).1 = some ⟨some ["log".toList], none⟩ := by
      rw [answer, getResolvedGitIgnoreForFile_fresh hws, search_of_parent (by decide) hroot, hnone]
      rfl
    simp only [isIgnored, Machine.run, hfound]
    rfl
  · simp only [isIgnored]
    rw [answer_forFile_after_forDir (by decide) (by decide)]
    rfl

end GitIgnoreTree

end Deno.GitIgnore
