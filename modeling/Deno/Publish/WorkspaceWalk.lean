import Deno.Publish.Workspace

/-!
# The walk through a package

What the walk of a package finds, by the texts of the URLs.
-/

namespace Deno.Publish

open Core List

variable {Name : Type} [LinearOrder Name]

/-! ### Dependencies of modules and packages -/

def ModuleGraph.FileDep (graph : ModuleGraph) (specifier target : Url) : Prop :=
  ∃ module, graph.get specifier = some module ∧ target.scheme = "file".toList ∧
    ∃ dep ∈ module.depSpecifiers, graph.resolve dep = target

/-- The files that are reached from the given ones through those that pass the test. -/
inductive Reached (graph : ModuleGraph) (own starts : Url → Prop) : Url → Prop where
  | start {specifier : Url} (h : starts specifier) : Reached graph own starts specifier
  | dep {specifier target : Url} (h : Reached graph own starts specifier)
      (hdep : graph.FileDep specifier target) (hown : own target) :
      Reached graph own starts target

/-! ### The walk of a package -/

namespace Walk

variable (graph : ModuleGraph) (roots : List (Url × WorkspaceMember Name)) (rootDirUrl : Url)

/-- The package that a file outside of the directory is attributed to. -/
def Attributed (target : Url) (name : Name) : Prop :=
  inDirUrl rootDirUrl target = false ∧
    ∃ root, (roots.find? fun root => inDirUrl root.1 target) = some root ∧ root.2.packageName = name

variable {graph roots rootDirUrl}

/-- What visiting dependencies of a module does: those in the directory are seen, and walked if they
were not seen before, and the others are attributed to packages. -/
structure Visits (graph : ModuleGraph) (roots : List (Url × WorkspaceMember Name))
    (rootDirUrl : Url) (deps : List Url) (walk next : Walk Name) : Prop where
  seen : ∀ target, target ∈ next.seenModules ↔ target ∈ walk.seenModules ∨
    (target.scheme = "file".toList ∧ inDirUrl rootDirUrl target = true ∧
      ∃ dep ∈ deps, graph.resolve dep = target)
  pending : ∀ target, target ∈ next.pending ↔ target ∈ walk.pending ∨
    (target ∉ walk.seenModules ∧ target.scheme = "file".toList ∧
      inDirUrl rootDirUrl target = true ∧ ∃ dep ∈ deps, graph.resolve dep = target)
  deps : ∀ name, name ∈ next.deps ↔ name ∈ walk.deps ∨ ∃ target, target.scheme = "file".toList ∧
    Attributed roots rootDirUrl target name ∧ ∃ dep ∈ deps, graph.resolve dep = target
  nodup : walk.deps.Nodup → next.deps.Nodup

lemma visits_visit (walk : Walk Name) (dep : Url) :
    Visits graph roots rootDirUrl [dep] walk (walk.visit graph roots rootDirUrl dep) := by
  unfold Walk.visit
  dsimp only
  split_ifs with hscheme hown hseen
  · constructor <;> grind [Attributed]
  · constructor <;> grind [Attributed]
  · constructor <;> grind [Attributed]
  · split
    · constructor <;> grind [Attributed]
    · refine ⟨?_, ?_, ?_, fun h => h.insert⟩ <;> grind [Attributed]

lemma visits_foldl (walk : Walk Name) (deps : List Url) : Visits graph roots rootDirUrl deps walk
    (deps.foldl (visit graph roots rootDirUrl) walk) := by
  induction deps generalizing walk with
  | nil => constructor <;> simp
  | cons dep deps ih =>
    have hfirst : Visits graph roots rootDirUrl [dep] walk _ := visits_visit walk dep
    have hrest := ih (walk.visit graph roots rootDirUrl dep)
    constructor <;> grind [Visits]

/-- The walk from the given modules, with those that are done and those that other walks have
seen. -/
structure Inv (graph : ModuleGraph) (roots : List (Url × WorkspaceMember Name)) (rootDirUrl : Url)
    (starts before done : List Url) (walk : Walk Name) : Prop where
  reached : ∀ specifier, specifier ∈ done ∨ specifier ∈ walk.pending →
    Reached graph (inDirUrl rootDirUrl · = true) (· ∈ starts) specifier
  started : ∀ specifier ∈ starts, specifier ∈ done ∨ specifier ∈ walk.pending
  closed : ∀ specifier ∈ done, ∀ target, graph.FileDep specifier target →
    inDirUrl rootDirUrl target = true → target ∈ walk.seenModules
  seen : ∀ target ∈ walk.seenModules, target ∈ before ∨
    ((target ∈ done ∨ target ∈ walk.pending) ∧ inDirUrl rootDirUrl target = true ∧
      ∃ specifier ∈ done, graph.FileDep specifier target)
  deps : ∀ name, name ∈ walk.deps ↔ ∃ specifier ∈ done, ∃ target,
    graph.FileDep specifier target ∧ Attributed roots rootDirUrl target name
  nodup : walk.deps.Nodup

namespace Inv

variable {starts before done : List Url} {walk : Walk Name}

omit [LinearOrder Name] in
lemma start (graph : ModuleGraph) (roots : List (Url × WorkspaceMember Name))
    (rootDirUrl : Url) (starts before : List Url) :
    Inv graph roots rootDirUrl starts before [] ⟨before, starts, []⟩ where
  reached specifier h := .start (h.resolve_left not_mem_nil)
  started specifier h := .inr h
  closed specifier h := absurd h not_mem_nil
  seen target h := .inl h
  deps name := by simp
  nodup := nodup_nil

variable (h : Inv graph roots rootDirUrl starts before done walk)

include h

omit [LinearOrder Name] in
lemma skip {specifier : Url} {pending : List Url}
    (hpending : walk.pending = specifier :: pending) (hmodule : graph.get specifier = none) :
    Inv graph roots rootDirUrl starts before (specifier :: done)
      { walk with pending := pending } := by
  have hnone (target : Url) : ¬ graph.FileDep specifier target := by
    rintro ⟨module, hmodule', -⟩
    rw [hmodule] at hmodule'
    cases hmodule'
  have hmem (other : Url) : other ∈ specifier :: done ∨ other ∈ pending ↔
      other ∈ done ∨ other ∈ walk.pending := by
    rw [hpending, mem_cons, mem_cons]
    tauto
  constructor
  · intro other hother
    exact h.reached other ((hmem other).mp hother)
  · intro other hother
    exact (hmem other).mpr (h.started other hother)
  · exact List.forall_mem_cons.mpr ⟨fun target hdep => absurd hdep (hnone target), h.closed⟩
  · intro target htarget
    rw [hmem]
    have := h.seen target htarget
    grind
  · intro name
    rw [h.deps]
    simp [hnone]
  · exact h.nodup

lemma visit {specifier : Url} {pending : List Url} {module : JsModule}
    (hpending : walk.pending = specifier :: pending) (hmodule : graph.get specifier = some module) :
    Inv graph roots rootDirUrl starts before (specifier :: done)
      (module.depSpecifiers.foldl (Walk.visit graph roots rootDirUrl)
        { walk with pending := pending }) := by
  have hdep (target : Url) : graph.FileDep specifier target ↔
      target.scheme = "file".toList ∧ ∃ dep ∈ module.depSpecifiers, graph.resolve dep = target := by
    simp [ModuleGraph.FileDep, hmodule]
  have hspecifier := h.reached specifier (.inr (hpending ▸ mem_cons_self))
  have hvisits : Visits graph roots rootDirUrl _ { walk with pending := pending } _ :=
    visits_foldl _ module.depSpecifiers
  constructor
  · intro other hother
    rw [hvisits.pending] at hother
    rcases hother with hother | hother | ⟨-, hscheme, hown, hsome⟩
    · rcases List.mem_cons.mp hother with rfl | hother
      · exact hspecifier
      · exact h.reached other (.inl hother)
    · exact h.reached other (.inr (hpending ▸ mem_cons_of_mem _ hother))
    · exact .dep hspecifier ((hdep other).mpr ⟨hscheme, hsome⟩) hown
  · intro other hother
    rw [hvisits.pending]
    have := h.started other hother
    grind
  · intro other hother target htarget hown
    rw [hvisits.seen]
    grind [h.closed]
  · intro target htarget
    rw [hvisits.seen] at htarget
    rw [hvisits.pending]
    by_cases hseen : target ∈ walk.seenModules
    · have hold := h.seen target hseen
      grind
    · obtain ⟨hscheme, hown, hsome⟩ := htarget.resolve_left hseen
      exact .inr ⟨.inr (.inr ⟨hseen, hscheme, hown, hsome⟩), hown, specifier, mem_cons_self,
        (hdep target).mpr ⟨hscheme, hsome⟩⟩
  · intro name
    rw [hvisits.deps, h.deps]
    grind
  · exact hvisits.nodup h.nodup

lemma run :
    ∃ done, Inv graph roots rootDirUrl starts before done (Walk.run graph roots rootDirUrl walk) ∧
      (Walk.run graph roots rootDirUrl walk).pending = [] := by
  fun_induction Walk.run graph roots rootDirUrl walk generalizing done with
  | case1 walk hpending => exact ⟨done, h, hpending⟩
  | case2 walk specifier pending hpending hmodule ih => exact ih (h.skip hpending hmodule)
  | case3 walk specifier pending hpending module hmodule ih => exact ih (h.visit hpending hmodule)

end Inv

/-- A walk attributes dependencies of the files that it reaches, and all of them if it meets nothing
in the directory that an earlier one has seen. -/
lemma run_spec (graph : ModuleGraph) (roots : List (Url × WorkspaceMember Name))
    (rootDirUrl : Url) (starts before : List Url) :
    let walk := Walk.run graph roots rootDirUrl (⟨before, starts, []⟩ : Walk Name)
    let Met := fun target => ∃ specifier,
      Reached graph (inDirUrl rootDirUrl · = true) (· ∈ starts) specifier ∧
        graph.FileDep specifier target
    (∀ target ∈ walk.seenModules, target ∈ before ∨ inDirUrl rootDirUrl target = true ∧ Met target) ∧
    (∀ name ∈ walk.deps, ∃ target, Met target ∧ Attributed roots rootDirUrl target name) ∧
    ((∀ target, Met target → inDirUrl rootDirUrl target = true → target ∉ before) →
      ∀ target name, Met target → Attributed roots rootDirUrl target name → name ∈ walk.deps) ∧
    walk.deps.Nodup := by
  intro walk Met
  obtain ⟨done, h, hpending⟩ := (Inv.start graph roots rootDirUrl starts before).run
  have hdone {specifier : Url} (hmem : specifier ∈ done ∨ specifier ∈ walk.pending) :
      specifier ∈ done := by
    rw [show walk.pending = [] from hpending] at hmem
    exact hmem.resolve_right not_mem_nil
  refine ⟨?_, ?_, ?_, h.nodup⟩
  · intro target htarget
    refine (h.seen target htarget).imp_right ?_
    rintro ⟨-, hown, specifier, hspecifier, hdep⟩
    exact ⟨hown, specifier, h.reached specifier (.inl hspecifier), hdep⟩
  · intro name hname
    obtain ⟨specifier, hspecifier, target, hdep, hattributed⟩ := (h.deps name).mp hname
    exact ⟨target, ⟨specifier, h.reached specifier (.inl hspecifier), hdep⟩, hattributed⟩
  · intro hbefore
    have hall {specifier : Url}
        (hreached : Reached graph (inDirUrl rootDirUrl · = true) (· ∈ starts) specifier) :
        specifier ∈ done := by
      induction hreached with
      | start hstart => exact hdone (h.started _ hstart)
      | dep hreached hdep hown ih =>
        rcases h.seen _ (h.closed _ ih _ hdep hown) with hseen | ⟨hmem, -⟩
        · exact absurd hseen (hbefore _ ⟨_, hreached, hdep⟩ hown)
        · exact hdone hmem
    rintro target name ⟨specifier, hreached, hdep⟩ hattributed
    exact (h.deps name).mpr ⟨specifier, hall hreached, target, hdep, hattributed⟩

def next (graph : ModuleGraph) (roots : List (Url × WorkspaceMember Name)) (rootDirUrl : Url)
    (walk : Walk Name) : Walk Name :=
  match walk.pending with
  | [] => walk
  | specifier :: pending =>
    (((graph.get specifier).elim [] JsModule.depSpecifiers).foldl (visit graph roots rootDirUrl)
      { walk with pending := pending })

lemma run_next (walk : Walk Name) : run graph roots rootDirUrl (next graph roots rootDirUrl walk) =
      run graph roots rootDirUrl walk := by
  fun_cases run graph roots rootDirUrl walk with
  | case1 hpending =>
    rw [next, hpending]
    rw [run, hpending]
  | case2 specifier pending hpending hmodule =>
    simp [next, hpending, hmodule, Option.elim_none]
  | case3 specifier pending hpending module hmodule =>
    simp [next, hpending, hmodule]

lemma run_eq_iterate (n : ℕ) (walk : Walk Name)
    (h : ((next graph roots rootDirUrl)^[n] walk).pending = []) :
    run graph roots rootDirUrl walk = (next graph roots rootDirUrl)^[n] walk := by
  induction n generalizing walk with
  | zero =>
    rw [run, show walk.pending = [] from h]
    rfl
  | succ n ih => rw [← run_next, Function.iterate_succ_apply, ih _ h]

end Walk

end Deno.Publish
