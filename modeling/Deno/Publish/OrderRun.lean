import Deno.Publish.Order

/-!
# Runs of the publish order

Between the calls, the count of a package is the number of its dependencies that are not finished.
-/

namespace Deno.Publish

open Core List

variable {Name : Type} [LinearOrder Name]

/-! ### Schedules -/

/-- The dependencies of the packages: a map of sets, with every dependency a package of the map. -/
structure PackageDeps (Name : Type) where
  entries : List (Name × List Name)
  keys_nodup : (keys entries).Nodup
  deps_nodup : ∀ entry ∈ entries, entry.2.Nodup
  closed : ∀ entry ∈ entries, ∀ dep ∈ entry.2, dep ∈ keys entries

def PackageDeps.DependsOn (packages : PackageDeps Name) (name dep : Name) : Prop :=
  ∃ deps, (name, deps) ∈ packages.entries ∧ dep ∈ deps

/-- No package depends on itself, not through others either. -/
def PackageDeps.Acyclic (packages : PackageDeps Name) : Prop :=
  ∀ name, ¬ Relation.TransGen packages.DependsOn name name

inductive Call (Name : Type) where
  | next
  | finish (name : Name)

/-- The graph, with the packages that were returned and those that were finished so far. -/
structure Schedule (Name : Type) where
  graph : PublishOrderGraph Name
  returned : List Name
  finished : List Name

namespace Schedule

def start (packages : PackageDeps Name) : Schedule Name where
  graph := buildPublishOrderGraph packages.entries
  returned := []
  finished := []

def step (s : Schedule Name) : Call Name → Except (Failure Name) (Schedule Name)
  | .next =>
    .ok { s with graph := s.graph.next.2, returned := s.returned ++ s.graph.next.1 }
  | .finish name => do
    let graph ← s.graph.finishPackage name
    return { s with graph := graph, finished := s.finished ++ [name] }

/-- A package is finished after it was returned, and once. -/
def Allowed (s : Schedule Name) : Call Name → Prop
  | .next => True
  | .finish name => name ∈ s.returned ∧ name ∉ s.finished

def AllAllowed : Schedule Name → List (Call Name) → Prop
  | _, [] => True
  | s, call :: calls => s.Allowed call ∧ ∀ s', s.step call = .ok s' → s'.AllAllowed calls

end Schedule

/-! ### Counting -/

def dependents (entries : List (Name × List Name)) (name : Name) : List Name :=
  keys (entries.filter fun entry => entry.2.contains name)

def degrees (entries : List (Name × List Name)) (returned finished : List Name) : List (Name × ℕ) :=
  (entries.filter fun entry => !returned.contains entry.1).map fun entry =>
    (entry.1, (entry.2.filter fun dep => !finished.contains dep).length)

lemma lookup_pushTo (name value other : Name) (map : List (Name × List Name)) :
    (pushTo name value map).lookup other =
      if other = name then some ((map.lookup name).getD [] ++ [value]) else map.lookup other := by
  induction map with
  | nil => simp [pushTo, lookup_cons_if]
  | cons entry map ih =>
    obtain ⟨key, values⟩ := entry
    rw [pushTo]
    by_cases hkey : key = name
    · subst hkey
      rw [if_pos rfl, lookup_cons_if, lookup_cons_if, lookup_cons_if]
      split_ifs <;> simp_all
    · rw [if_neg hkey, lookup_cons_if, lookup_cons_if, lookup_cons_if]
      split_ifs <;> simp_all

def reverseEntry (names : List Name) : Option (List Name) := if names = [] then none else some names

omit [LinearOrder Name] in
@[simp] lemma getD_reverseEntry (names : List Name) : (reverseEntry names).getD [] = names := by
  unfold reverseEntry
  split_ifs with h <;> simp [h]

variable {names : List Name} {deps : List Name} {map : List (Name × List Name)}

lemma lookup_foldl_pushTo (name other : Name) (hdeps : deps.Nodup)
    (h : map.lookup other = reverseEntry names) :
    (deps.foldl (fun map dep => pushTo dep name map) map).lookup other =
      reverseEntry (if deps.contains other then names ++ [name] else names) := by
  induction deps generalizing map names with
  | nil => simpa using h
  | cons dep deps ih =>
    obtain ⟨hnotMem, hrest⟩ := List.nodup_cons.mp hdeps
    rw [foldl_cons]
    by_cases hdep : other = dep
    · subst hdep
      have hpush : (pushTo other name map).lookup other = reverseEntry (names ++ [name]) := by
        rw [lookup_pushTo, h, getD_reverseEntry]
        simp [reverseEntry]
      rw [ih hrest hpush]
      simp [hnotMem]
    · have hpush : (pushTo dep name map).lookup other = reverseEntry names := by
        rw [lookup_pushTo, if_neg hdep, h]
      rw [ih hrest hpush]
      simp [hdep]

variable {entries : List (Name × List Name)}

lemma lookup_foldl_entries (hdeps : ∀ entry ∈ entries, entry.2.Nodup) {other : Name}
    (h : map.lookup other = reverseEntry names) : (entries.foldl (fun map (name, deps) =>
      deps.foldl (fun map dep => pushTo dep name map) map) map).lookup other =
      reverseEntry (names ++ dependents entries other) := by
  induction entries generalizing map names with
  | nil => simpa [dependents, keys] using h
  | cons entry entries ih =>
    obtain ⟨hentry, hdeps⟩ := List.forall_mem_cons.mp hdeps
    rw [foldl_cons, ih hdeps (lookup_foldl_pushTo entry.1 other hentry h)]
    by_cases hmem : entry.2.contains other
    · simp only [dependents, keys, filter_cons, hmem, if_true, map_cons,
        append_assoc, singleton_append]
    · simp only [dependents, keys, filter_cons, hmem, Bool.false_eq_true, if_false]

lemma lookup_remove {Value : Type} (name other : Name) (map : List (Name × Value)) :
    (remove name map).lookup other = if other = name then none else map.lookup other := by
  induction map with
  | nil => simp [remove]
  | cons entry map ih =>
    obtain ⟨key, value⟩ := entry
    rw [remove] at ih ⊢
    by_cases hkey : key = name
    · rw [filter_cons_of_neg (by simpa using hkey), ih, lookup_cons_if]
      split_ifs <;> simp_all
    · rw [filter_cons_of_pos (by simpa using hkey), lookup_cons_if, lookup_cons_if, ih]
      split_ifs <;> simp_all

lemma foldl_remove {Value : Type} (names : List Name) (map : List (Name × Value)) :
    names.foldl (fun map name => remove name map) map =
      map.filter fun entry => !names.contains entry.1 := by
  induction names generalizing map with
  | nil => simp
  | cons name names ih =>
    rw [foldl_cons, ih, remove]
    simp [Bool.and_comm]

/-! ### What is returned -/

variable {packages : PackageDeps Name} {returned finished : List Name}

variable {name : Name}

lemma mem_degrees {degree : ℕ} : (name, degree) ∈ degrees entries returned finished ↔
      ∃ deps, (name, deps) ∈ entries ∧ name ∉ returned ∧
        (deps.filter fun dep => !finished.contains dep).length = degree := by
  simp only [degrees, mem_map, mem_filter, Prod.mk.injEq, Prod.exists]
  constructor
  · rintro ⟨_, deps, ⟨hmem, hnew⟩, rfl, rfl⟩
    exact ⟨deps, hmem, by simpa using hnew, rfl⟩
  · rintro ⟨deps, hmem, hnew, rfl⟩
    exact ⟨name, deps, ⟨hmem, by simpa using hnew⟩, rfl, rfl⟩

lemma length_filter_eq_zero :
    (deps.filter fun dep => !finished.contains dep).length = 0 ↔ ∀ dep ∈ deps, dep ∈ finished := by
  simp

lemma ready_perm (graph : PublishOrderGraph Name) :
    graph.ready.Perm (keys (graph.inDegree.filter fun entry => entry.2 == 0)) := by
  refine ((mergeSort_perm _ before).map Prod.fst).trans ?_
  rw [map_map]
  exact (map_id' _).symm ▸ List.Perm.refl _

variable {graph : PublishOrderGraph Name}

lemma mem_ready : name ∈ graph.ready ↔ (name, 0) ∈ graph.inDegree := by
  rw [(ready_perm graph).mem_iff]
  simp [keys]

lemma ready_nodup (h : (keys graph.inDegree).Nodup) : graph.ready.Nodup :=
  (ready_perm graph).nodup_iff.mpr (h.sublist (List.filter_sublist.map Prod.fst))

lemma keys_degrees_nodup (packages : PackageDeps Name) (returned finished : List Name) :
    (keys (degrees packages.entries returned finished)).Nodup := by
  rw [keys, degrees, map_map]
  exact packages.keys_nodup.sublist (List.filter_sublist.map Prod.fst)

/-! ### What is counted -/

lemma foldlM_decrement (hnames : names.Nodup) {inDegree : List (Name × ℕ)}
    (hkeys : (keys inDegree).Nodup) (h : ∀ name ∈ names, ∃ degree, (name, degree + 1) ∈ inDegree) :
    names.foldlM PublishOrderGraph.decrement inDegree = .ok (inDegree.map fun entry =>
      if names.contains entry.1 then (entry.1, entry.2 - 1) else entry) := by
  induction names generalizing inDegree with
  | nil => simp; rfl
  | cons name names ih =>
    obtain ⟨hnotMem, hrest⟩ := List.nodup_cons.mp hnames
    obtain ⟨⟨degree, hdegree⟩, h⟩ := List.forall_mem_cons.mp h
    set inDegree' := inDegree.map fun entry => if entry.1 = name then (entry.1, degree) else entry
      with hinDegree'
    have hstep : PublishOrderGraph.decrement inDegree name = .ok inDegree' := by
      rw [PublishOrderGraph.decrement, lookup_of_mem hkeys hdegree]
    have hkeys' : keys inDegree' = keys inDegree := by
      rw [keys, map_map]
      refine map_congr_left fun entry _ => ?_
      simp only [Function.comp]
      split_ifs <;> rfl
    have hrest' : ∀ other ∈ names, ∃ degree, (other, degree + 1) ∈ inDegree' := by
      intro other hother
      obtain ⟨degree', hdegree'⟩ := h other hother
      refine ⟨degree', List.mem_map.mpr ⟨_, hdegree', if_neg ?_⟩⟩
      rintro rfl
      exact hnotMem hother
    rw [foldlM_cons_eq_ok]
    refine ⟨inDegree', hstep, (ih hrest (hkeys' ▸ hkeys) hrest').trans ?_⟩
    congr 1
    rw [map_map]
    refine map_congr_left fun entry hentry => ?_
    by_cases hname : entry.1 = name
    · have hentry' : entry = (name, degree + 1) := inj_on_of_nodup_map hkeys hentry hdegree hname
      simp [hentry', hnotMem]
    · simp [hname]

lemma length_filter_concat (hdeps : deps.Nodup) (hnew : name ∉ finished) :
    (deps.filter fun dep => !(finished ++ [name]).contains dep).length =
      if deps.contains name then (deps.filter fun dep => !finished.contains dep).length - 1
      else (deps.filter fun dep => !finished.contains dep).length := by
  have hfilter : (deps.filter fun dep => !(finished ++ [name]).contains dep) =
      (deps.filter fun dep => !finished.contains dep).erase name := by
    rw [(hdeps.filter _).erase_eq_filter, filter_filter]
    refine filter_congr fun dep _ => ?_
    by_cases hdep : dep = name
    · simp [hdep]
    · simp [hdep, bne, beq_eq_false_iff_ne.mpr hdep]
  have hmem : name ∈ (deps.filter fun dep => !finished.contains dep) ↔ name ∈ deps := by
    simp [hnew]
  rw [hfilter]
  split_ifs with hcontains
  · exact length_erase_of_mem (hmem.mpr (List.contains_iff_mem.mp hcontains))
  · rw [erase_of_not_mem fun h => hcontains (List.contains_iff_mem.mpr (hmem.mp h))]

lemma contains_dependents {entry : Name × List Name} (hentry : entry ∈ packages.entries)
    (name : Name) : (dependents packages.entries name).contains entry.1 = entry.2.contains name := by
  rw [Bool.eq_iff_iff, contains_iff_mem, dependents, keys, mem_map]
  constructor
  · rintro ⟨other, hother, heq⟩
    obtain ⟨hother, hcontains⟩ := List.mem_filter.mp hother
    rwa [← inj_on_of_nodup_map packages.keys_nodup hother hentry heq]
  · intro hcontains
    exact ⟨entry, List.mem_filter.mpr ⟨hentry, hcontains⟩, rfl⟩

lemma degrees_concat (hnew : name ∉ finished) :
    degrees packages.entries returned (finished ++ [name]) =
      (degrees packages.entries returned finished).map fun entry =>
        if (dependents packages.entries name).contains entry.1 then (entry.1, entry.2 - 1)
        else entry := by
  rw [degrees, degrees, map_map]
  refine map_congr_left fun entry hentry => ?_
  have hentry := (List.mem_filter.mp hentry).1
  simp only [Function.comp, contains_dependents hentry,
    length_filter_concat (packages.deps_nodup entry hentry) hnew]
  split_ifs <;> rfl

structure Inv (packages : PackageDeps Name) (s : Schedule Name) : Prop where
  packages_eq : s.graph.packages = packages.entries
  inDegree_eq : s.graph.inDegree = degrees packages.entries s.returned s.finished
  reverseMap_eq : ∀ name, s.graph.reverseMap.lookup name =
    if name ∈ s.finished then none else reverseEntry (dependents packages.entries name)
  returned_nodup : s.returned.Nodup
  returned_sub : ∀ name ∈ s.returned, name ∈ keys packages.entries
  finished_sub : ∀ name ∈ s.finished, name ∈ s.returned
  deps_finished : ∀ name ∈ s.returned, ∀ dep, packages.DependsOn name dep → dep ∈ s.finished
  deps_before : ∀ earlier name later, s.returned = earlier ++ name :: later →
    ∀ dep, packages.DependsOn name dep → dep ∈ earlier

namespace Inv

variable {s : Schedule Name}

lemma start (packages : PackageDeps Name) : Inv packages (.start packages) where
  packages_eq := rfl
  inDegree_eq := by
    simp [Schedule.start, degrees]
    rfl
  reverseMap_eq name := by
    have hempty : ([] : List (Name × List Name)).lookup name = reverseEntry [] := rfl
    refine (lookup_foldl_entries packages.deps_nodup hempty).trans ?_
    simp [Schedule.start]
  returned_nodup := nodup_nil
  returned_sub := by simp [Schedule.start]
  finished_sub := by simp [Schedule.start]
  deps_finished := by simp [Schedule.start]
  deps_before := by simp [Schedule.start]

variable (h : Inv packages s)

include h

/-- What is returned next was not returned before, and has its dependencies finished. -/
lemma of_mem_ready (hmem : name ∈ s.graph.ready) :
    name ∈ keys packages.entries ∧ name ∉ s.returned ∧
      ∀ dep, packages.DependsOn name dep → dep ∈ s.finished := by
  rw [mem_ready, h.inDegree_eq, mem_degrees] at hmem
  obtain ⟨deps, hdeps, hnew, hzero⟩ := hmem
  refine ⟨List.mem_map.mpr ⟨_, hdeps, rfl⟩, hnew, ?_⟩
  rintro dep ⟨deps', hdeps', hdep⟩
  obtain rfl := eq_of_mem_of_nodup packages.keys_nodup hdeps hdeps'
  exact length_filter_eq_zero.mp hzero dep hdep

lemma ready_nodup : s.graph.ready.Nodup := by
  refine Publish.ready_nodup ?_
  rw [h.inDegree_eq]
  exact keys_degrees_nodup packages _ _

lemma next : Inv packages
    { s with graph := s.graph.next.2, returned := s.returned ++ s.graph.next.1 } where
  packages_eq := h.packages_eq
  inDegree_eq := by
    simp only [PublishOrderGraph.next]
    rw [foldl_remove, h.inDegree_eq, degrees, degrees, filter_map]
    simp [Bool.and_comm]
  reverseMap_eq := h.reverseMap_eq
  returned_nodup := by
    refine List.nodup_append.mpr ⟨h.returned_nodup, h.ready_nodup, ?_⟩
    rintro name hname _ hready rfl
    exact (h.of_mem_ready hready).2.1 hname
  returned_sub name hname := by
    rcases List.mem_append.mp hname with hname | hname
    · exact h.returned_sub name hname
    · exact (h.of_mem_ready hname).1
  finished_sub name hname := mem_append_left _ (h.finished_sub name hname)
  deps_finished name hname := by
    rcases List.mem_append.mp hname with hname | hname
    · exact h.deps_finished name hname
    · exact (h.of_mem_ready hname).2.2
  deps_before earlier name later heq dep hdep := by
    have hready : name ∈ s.graph.next.1 → dep ∈ s.returned :=
      fun hname => h.finished_sub dep ((h.of_mem_ready hname).2.2 dep hdep)
    rcases List.append_eq_append_iff.mp heq with ⟨more, rfl, hmore⟩ | ⟨more, hreturned, hmore⟩
    · refine mem_append_left _ (hready ?_)
      exact hmore ▸ mem_append_right _ mem_cons_self
    · cases more with
      | nil =>
        rw [append_nil] at hreturned
        rw [← hreturned]
        rw [nil_append] at hmore
        exact hready (hmore ▸ mem_cons_self)
      | cons other more =>
        obtain ⟨rfl, -⟩ := List.cons.inj hmore
        exact h.deps_before earlier name more hreturned dep hdep

/-- The dependents of a package that is not finished were not returned, and count it. -/
lemma exists_degree_succ (hnew : name ∉ s.finished) {other : Name}
    (hother : other ∈ dependents packages.entries name) :
    ∃ degree, (other, degree + 1) ∈ s.graph.inDegree := by
  obtain ⟨entry, hentry, rfl⟩ := List.mem_map.mp hother
  obtain ⟨hentry, hcontains⟩ := List.mem_filter.mp hentry
  have hmem : name ∈ entry.2 := List.contains_iff_mem.mp hcontains
  have hreturned : entry.1 ∉ s.returned := by
    intro hreturned
    exact hnew (h.deps_finished entry.1 hreturned name ⟨entry.2, hentry, hmem⟩)
  have hpos : (entry.2.filter fun dep => !s.finished.contains dep).length ≠ 0 := by
    intro hzero
    exact hnew (length_filter_eq_zero.mp hzero name hmem)
  obtain ⟨degree, hdegree⟩ := Nat.exists_eq_succ_of_ne_zero hpos
  refine ⟨degree, ?_⟩
  rw [h.inDegree_eq, mem_degrees]
  exact ⟨entry.2, hentry, hreturned, hdegree⟩

/-- Finishing a package succeeds, and takes it off the counts. -/
lemma finish (hreturned : name ∈ s.returned) (hnew : name ∉ s.finished) :
    ∃ graph, s.graph.finishPackage name = .ok graph ∧
      Inv packages { s with graph := graph, finished := s.finished ++ [name] } := by
  have hlookup : s.graph.reverseMap.lookup name =
      reverseEntry (dependents packages.entries name) := by
    rw [h.reverseMap_eq, if_neg hnew]
  have hinv : ∀ inDegree reverseMap,
      inDegree = degrees packages.entries s.returned (s.finished ++ [name]) →
      (∀ other, reverseMap.lookup other =
        if other ∈ s.finished ++ [name] then none
        else reverseEntry (dependents packages.entries other)) →
      Inv packages ⟨⟨s.graph.packages, inDegree, reverseMap⟩, s.returned, s.finished ++ [name]⟩ := by
    intro inDegree reverseMap hinDegree hreverseMap
    refine ⟨h.packages_eq, hinDegree, hreverseMap, h.returned_nodup, h.returned_sub, ?_, ?_,
      h.deps_before⟩
    · intro other hother
      rcases List.mem_append.mp hother with hother | hother
      · exact h.finished_sub other hother
      · exact List.mem_singleton.mp hother ▸ hreturned
    · intro other hother dep hdep
      exact mem_append_left _ (h.deps_finished other hother dep hdep)
  by_cases hnone : dependents packages.entries name = []
  · refine ⟨s.graph, ?_, hinv _ _ ?_ fun other => ?_⟩
    · rw [PublishOrderGraph.finishPackage, hlookup, hnone]
      rfl
    · rw [h.inDegree_eq, degrees_concat hnew]
      simp [hnone]
    · rw [h.reverseMap_eq]
      by_cases hother : other = name
      · simp [hother, hnew, hnone, reverseEntry]
      · simp [hother]
  · have hnodup : (dependents packages.entries name).Nodup :=
      packages.keys_nodup.sublist (List.filter_sublist.map Prod.fst)
    have hkeys : (keys s.graph.inDegree).Nodup := by
      rw [h.inDegree_eq]
      exact keys_degrees_nodup packages _ _
    have hdecrement : (dependents packages.entries name).foldlM PublishOrderGraph.decrement
        s.graph.inDegree = .ok (degrees packages.entries s.returned (s.finished ++ [name])) := by
      rw [foldlM_decrement hnodup hkeys fun other => h.exists_degree_succ hnew, h.inDegree_eq,
        degrees_concat hnew]
    refine ⟨⟨s.graph.packages, degrees packages.entries s.returned (s.finished ++ [name]),
      remove name s.graph.reverseMap⟩, ?_, hinv _ _ rfl fun other => ?_⟩
    · rw [PublishOrderGraph.finishPackage, hlookup, reverseEntry, if_neg hnone]
      simp only [hdecrement]
      rfl
    · rw [lookup_remove, h.reverseMap_eq]
      by_cases hother : other = name <;> simp [hother]

end Inv

end Deno.Publish
