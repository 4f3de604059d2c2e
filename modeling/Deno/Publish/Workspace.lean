import Deno.Core.Path
import Deno.Core.Url
import Deno.Error
import Deno.Publish.Order

/-!
# The dependencies of the packages of a workspace

The modules of each package are walked from its exports. A dependency in the directory of the
package is walked too, and any other one is attributed to the first package whose directory it
starts with. Both are decided by the texts of the URLs.
-/

namespace Deno.Publish

open Core

variable {Name : Type} [LinearOrder Name]

/-- How the `url` crate turns paths of files into URLs and back. -/
structure FileUrls where
  fromFilePath : Path → Option Url
  toFilePath : Url → Option Path

structure JsModule where
  maybeTypesDependency : Option Url
  /-- The code and the types of each dependency, where they were resolved. -/
  dependencies : List (Option Url × Option Url)

/-- The JavaScript modules of a graph by their specifiers, and its redirects. -/
structure ModuleGraph where
  modules : List (Url × JsModule)
  resolve : Url → Url

structure WorkspaceMember (Name : Type) where
  packageName : Name
  dirPath : Path
  exportValueUrls : Except AnyError (List Url)

def JsModule.depSpecifiers (module : JsModule) : List Url :=
  module.maybeTypesDependency.toList ++
    module.dependencies.flatMap fun dep => dep.1.toList ++ dep.2.toList

namespace ModuleGraph

variable (graph : ModuleGraph)

def get (specifier : Url) : Option JsModule := graph.modules.lookup (graph.resolve specifier)

def targets : List Url :=
  graph.modules.flatMap fun entry => entry.2.depSpecifiers.map graph.resolve

def unseen (seenModules : List Url) : List Url :=
  graph.targets.filter fun specifier => !seenModules.contains specifier

end ModuleGraph

/-! ### The walk -/

structure Walk (Name : Type) where
  seenModules : List Url
  pending : List Url
  deps : List Name

/-- `specifier.as_str().starts_with(dir_url.as_str())`. -/
def inDirUrl (dirUrl specifier : Url) : Bool := dirUrl.asStr.isPrefixOf specifier.asStr

section

variable (graph : ModuleGraph) (roots : List (Url × WorkspaceMember Name)) (rootDirUrl : Url)
  (walk : Walk Name)

/-- A dependency of a module that is walked. -/
def Walk.visit (dep : Url) : Walk Name :=
  let specifier := graph.resolve dep
  if specifier.scheme ≠ "file".toList then walk
  else if inDirUrl rootDirUrl specifier then
    if walk.seenModules.contains specifier then walk
    else
      { walk with
        seenModules := specifier :: walk.seenModules
        pending := walk.pending ++ [specifier] }
  else
    match roots.find? fun root => inDirUrl root.1 specifier with
    | none => walk
    | some root => { walk with deps := walk.deps.insert root.2.packageName }

def Walk.size : ℕ :=
  (graph.unseen walk.seenModules).length + walk.pending.length

lemma ModuleGraph.resolve_mem_targets {graph : ModuleGraph} {specifier dep : Url}
    {module : JsModule} (hmodule : graph.get specifier = some module)
    (hdep : dep ∈ module.depSpecifiers) : graph.resolve dep ∈ graph.targets :=
  List.mem_flatMap.mpr ⟨_, mem_of_lookup hmodule, List.mem_map_of_mem hdep⟩

lemma Walk.size_visit_le {dep : Url} (hdep : graph.resolve dep ∈ graph.targets) :
    (walk.visit graph roots rootDirUrl dep).size graph ≤ walk.size graph := by
  unfold Walk.visit
  dsimp only
  split_ifs with _ _ hseen
  · exact le_rfl
  · exact le_rfl
  · have hlt := length_filter_contains_cons hdep hseen
    simp only [Walk.size, ModuleGraph.unseen, List.length_append, List.length_singleton]
    omega
  · split <;> exact le_rfl

lemma Walk.size_foldl_visit_le {deps : List Url}
    (hdeps : ∀ dep ∈ deps, graph.resolve dep ∈ graph.targets) :
    (deps.foldl (Walk.visit graph roots rootDirUrl) walk).size graph ≤ walk.size graph := by
  induction deps generalizing walk with
  | nil => exact le_rfl
  | cons dep deps ih =>
    obtain ⟨hdep, hdeps⟩ := List.forall_mem_cons.mp hdeps
    exact (ih _ hdeps).trans (walk.size_visit_le graph roots rootDirUrl hdep)

/-- The modules are walked, the first of the pending ones first. -/
def Walk.run (walk : Walk Name) : Walk Name :=
  match _hpending : walk.pending with
  | [] => walk
  | specifier :: pending =>
    match _hmodule : graph.get specifier with
    | none => Walk.run { walk with pending := pending }
    | some module =>
      Walk.run (module.depSpecifiers.foldl (Walk.visit graph roots rootDirUrl)
        { walk with pending := pending })
termination_by walk.size graph
decreasing_by
  · simp [Walk.size, _hpending]
  · refine (Walk.size_foldl_visit_le graph roots rootDirUrl _ fun dep hdep =>
      ModuleGraph.resolve_mem_targets _hmodule hdep).trans_lt ?_
    simp [Walk.size, _hpending]

end

/-! ### The packages -/

/-- The packages so far, with the modules that were seen. -/
abbrev Members (Name : Type) := List Url × List (Name × List Name)

def addMember (graph : ModuleGraph) (roots : List (Url × WorkspaceMember Name))
    (members : Members Name) (root : Url × WorkspaceMember Name) :
    Except AnyError (Members Name) := do
  let exportValueUrls ← root.2.exportValueUrls
  let walk := Walk.run graph roots root.1 ⟨members.1, exportValueUrls, []⟩
  return (walk.seenModules,
    remove root.2.packageName members.2 ++ [(root.2.packageName, walk.deps)])

def withDirUrl (files : FileUrls) (root : WorkspaceMember Name) :
    Except AnyError (Url × WorkspaceMember Name) := do
  return (← unwrapOption (files.fromFilePath root.dirPath), root)

def buildPkgDeps (files : FileUrls) (graph : ModuleGraph) (roots : List (WorkspaceMember Name)) :
    Except AnyError (List (Name × List Name)) := do
  let roots ← roots.mapM (withDirUrl files)
  let members ← roots.foldlM (addMember graph roots) ([], [])
  return members.2

end Deno.Publish
