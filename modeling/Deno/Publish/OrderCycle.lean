import Deno.Publish.OrderRun
import Mathlib.Data.List.Chain

/-!
# Circular dependencies

The packages that are left over when nothing can be returned have a circular dependency among them,
and the search for it finds one.
-/

namespace Deno.Publish

open Core List

variable {Name : Type} [LinearOrder Name] {packages : PackageDeps Name}

/-- A path of dependencies whose last package occurs on it before. -/
def PackageDeps.Circular (packages : PackageDeps Name) (path : List Name) : Prop :=
  path.IsChain packages.DependsOn ∧ ∃ last, path.getLast? = some last ∧ last ∈ path.dropLast

omit [LinearOrder Name] in
lemma PackageDeps.Circular.not_acyclic {path : List Name} (h : packages.Circular path) :
    ¬ packages.Acyclic := by
  obtain ⟨hchain, last, hlast, hmem⟩ := h
  have htrans : path.Pairwise (Relation.TransGen packages.DependsOn) :=
    List.isChain_iff_pairwise.mp (hchain.imp fun _ _ => .single)
  rw [← dropLast_append_getLast? last hlast, pairwise_append] at htrans
  intro hacyclic
  exact hacyclic last (htrans.2.2 last hmem last (mem_singleton_self last))

/-! ### The search -/

variable {current : Name} {visited : List Name} {entries : List (Name × List Name)}

lemma identifyCycle_new (h : ¬ visited.contains current)
    {deps : List Name} (hdeps : entries.lookup current = some deps) :
    identifyCycle entries current visited = do
      let cycle ← deps.findSomeM? fun dep => identifyCycle entries dep (current :: visited)
      return cycle.map (· ++ [current]) := by
  rw [identifyCycle, dif_neg h]
  split <;> simp_all

/-- What the search has found, the last package first: a way down from the current one to one that
was visited or is on the way. -/
def FoundCycle (packages : PackageDeps Name) (current : Name) (visited cycle : List Name) : Prop :=
  cycle.IsChain (fun dep name => packages.DependsOn name dep) ∧
    cycle.getLast? = some current ∧ ∃ last, cycle.head? = some last ∧ last ∈ visited ++ cycle.tail

omit [LinearOrder Name] in
lemma FoundCycle.cons {dep : Name} {cycle : List Name} (hdep : packages.DependsOn current dep)
    (h : FoundCycle packages dep (current :: visited) cycle) :
    FoundCycle packages current visited (cycle ++ [current]) := by
  obtain ⟨hchain, hlast, first, hfirst, hmem⟩ := h
  obtain ⟨rest, rfl⟩ : ∃ rest, cycle = first :: rest := by
    cases cycle with
    | nil => cases hfirst
    | cons other rest => exact ⟨rest, by rw [Option.some.inj hfirst]⟩
  refine ⟨?_, getLast?_concat, first, rfl, ?_⟩
  · refine List.isChain_append.mpr ⟨hchain, .singleton _, fun x hx y hy => ?_⟩
    rw [hlast] at hx
    cases hx
    cases hy
    exact hdep
  · simp only [cons_append, tail_cons, mem_cons, mem_append, not_mem_nil, or_false] at hmem ⊢
    tauto

omit [LinearOrder Name] in
lemma FoundCycle.circular {cycle : List Name} (h : FoundCycle packages current [] cycle) :
    packages.Circular cycle.reverse := by
  obtain ⟨hchain, -, last, hhead, hmem⟩ := h
  refine ⟨List.isChain_reverse.mpr hchain, last, ?_, ?_⟩
  · rw [getLast?_reverse, hhead]
  · rw [dropLast_reverse, mem_reverse]
    exact hmem

/-- The search does not fail, what it finds is a way back, and it finds one from a package from
which there is always a way on. -/
lemma identifyCycle_spec (packages : PackageDeps Name) (visited : List Name) {pending : Name → Prop}
    (hpending : ∀ name, pending name → ∃ dep, packages.DependsOn name dep ∧ pending dep)
    (hmem : current ∈ keys packages.entries) :
    ∃ found, identifyCycle packages.entries current visited = .ok found ∧
      (∀ cycle, found = some cycle → FoundCycle packages current visited cycle) ∧
      (pending current → found ≠ none) := by
  -- The packages that were not visited are fewer in each call.
  induction hlength : (unvisited packages.entries visited).length using Nat.strong_induction_on
    generalizing current visited with
  | _ length ih =>
  by_cases hvisited : visited.contains current
  · refine ⟨some [current], by rw [identifyCycle, dif_pos hvisited], ?_, by simp⟩
    rintro _ ⟨⟩
    exact ⟨.singleton _, rfl, current, rfl, mem_append_left _ (List.contains_iff_mem.mp hvisited)⟩
  · obtain ⟨deps, hentry⟩ := mem_keys.mp hmem
    have hdeps := lookup_of_mem packages.keys_nodup hentry
    have hless := hlength ▸ length_filter_contains_cons hmem hvisited
    have hspec := fun dep (hdep : dep ∈ deps) => ih _ hless _ (packages.closed _ hentry dep hdep) rfl
    obtain ⟨found, hfound, hnone, hsome⟩ := findSomeM?_eq_ok fun dep hdep =>
      (hspec dep hdep).imp fun _ h => h.1
    refine ⟨found.map (· ++ [current]), ?_, ?_, ?_⟩
    · rw [identifyCycle_new hvisited hdeps, hfound]
      rfl
    · intro cycle hcycle
      obtain ⟨rest, hrest, rfl⟩ := Option.map_eq_some_iff.mp hcycle
      obtain ⟨dep, hdep, hfoundDep⟩ := hsome rest hrest
      obtain ⟨found', hfound', hcycle', -⟩ := hspec dep hdep
      rw [hfound', Except.ok.injEq] at hfoundDep
      exact (hcycle' rest hfoundDep).cons ⟨deps, hentry, hdep⟩
    · intro hcurrent hfoundNone
      obtain ⟨dep, ⟨deps', hentry', hdep⟩, hpendingDep⟩ := hpending _ hcurrent
      obtain rfl := eq_of_mem_of_nodup packages.keys_nodup hentry hentry'
      obtain ⟨found', hfound', -, hne⟩ := hspec dep hdep
      rw [hnone (Option.map_eq_none_iff.mp hfoundNone) dep hdep, Except.ok.injEq] at hfound'
      exact hne hpendingDep hfound'.symm

/-! ### The end of a schedule -/

namespace Inv

variable {s : Schedule Name} (h : Inv packages s)

include h

lemma mem_keys_inDegree {name : Name} :
    name ∈ keys s.graph.inDegree ↔ name ∈ keys packages.entries ∧ name ∉ s.returned := by
  simp only [h.inDegree_eq, mem_keys, mem_degrees]
  constructor
  · rintro ⟨_, deps, hmem, hnew, -⟩
    exact ⟨⟨deps, hmem⟩, hnew⟩
  · rintro ⟨⟨deps, hmem⟩, hnew⟩
    exact ⟨_, deps, hmem, hnew, rfl⟩

/-- A package that is left over depends on another one. -/
lemma exists_pending_dep (hdone : ∀ name ∈ s.returned, name ∈ s.finished)
    (hempty : s.graph.next.1 = []) {name : Name} (hname : name ∈ keys s.graph.inDegree) :
    ∃ dep, packages.DependsOn name dep ∧ dep ∈ keys s.graph.inDegree := by
  obtain ⟨hmem, hnew⟩ := h.mem_keys_inDegree.mp hname
  obtain ⟨deps, hentry⟩ := mem_keys.mp hmem
  have hready : name ∉ s.graph.next.1 := hempty ▸ not_mem_nil
  rw [PublishOrderGraph.next] at hready
  rw [mem_ready, h.inDegree_eq, mem_degrees] at hready
  have hdep : ∃ dep ∈ deps, dep ∉ s.finished := by
    by_contra hall
    refine hready ⟨deps, hentry, hnew, length_filter_eq_zero.mpr fun dep hdep => ?_⟩
    by_contra hdep'
    exact hall ⟨dep, hdep, hdep'⟩
  obtain ⟨dep, hdep, hunfinished⟩ := hdep
  refine ⟨dep, ⟨deps, hentry, hdep⟩, h.mem_keys_inDegree.mpr ⟨?_, ?_⟩⟩
  · exact packages.closed _ hentry dep hdep
  · exact fun hreturned => hunfinished (hdone dep hreturned)

/-- When all packages were returned, each of them after those it depends on, none depends on
itself. -/
lemma acyclic (hall : ∀ name ∈ keys packages.entries, name ∈ s.returned) : packages.Acyclic := by
  have hstep : ∀ name dep, packages.DependsOn name dep →
      s.returned.idxOf dep < s.returned.idxOf name := by
    rintro name dep hdep
    have hname : name ∈ s.returned := by
      obtain ⟨deps, hentry, -⟩ := hdep
      exact hall name (mem_keys.mpr ⟨deps, hentry⟩)
    obtain ⟨earlier, later, hreturned⟩ := append_of_mem hname
    have hbefore := h.deps_before earlier name later hreturned dep hdep
    have hnotMem : name ∉ earlier := by
      intro hmem
      have hnodup := h.returned_nodup
      rw [hreturned, nodup_append] at hnodup
      exact hnodup.2.2 name hmem name mem_cons_self rfl
    rw [hreturned, idxOf_append_of_mem hbefore, idxOf_append_of_notMem hnotMem, idxOf_cons_self]
    exact idxOf_lt_length_of_mem hbefore
  have htrans : ∀ name dep, Relation.TransGen packages.DependsOn name dep →
      s.returned.idxOf dep < s.returned.idxOf name := by
    intro name dep hdep
    induction hdep with
    | single hdep => exact hstep _ _ hdep
    | tail _ hdep ih => exact (hstep _ _ hdep).trans ih
  exact fun name hname => lt_irrefl _ (htrans name name hname)

/-- At the end, nothing is pending if and only if there is no circular dependency, and else one is
named. -/
lemma ensureNoPending (hdone : ∀ name ∈ s.returned, name ∈ s.finished)
    (hempty : s.graph.next.1 = []) :
    (packages.Acyclic ∧ s.graph.ensureNoPending = .ok ()) ∨
      (¬ packages.Acyclic ∧ ∃ path, s.graph.ensureNoPending = .error (.circular path) ∧
        packages.Circular path) := by
  cases hsorted : (keys s.graph.inDegree).mergeSort with
  | nil =>
    refine .inl ⟨h.acyclic fun name hname => ?_, ?_⟩
    · by_contra hnew
      have hmem := h.mem_keys_inDegree.mpr ⟨hname, hnew⟩
      rw [← mem_mergeSort, hsorted] at hmem
      cases hmem
    · rw [PublishOrderGraph.ensureNoPending, hsorted]
  | cons name rest =>
    have hmem : name ∈ keys s.graph.inDegree := by
      rw [← mem_mergeSort, hsorted]
      exact mem_cons_self
    obtain ⟨found, hfound, hcycle, hne⟩ := identifyCycle_spec packages []
      (fun name => h.exists_pending_dep hdone hempty) (h.mem_keys_inDegree.mp hmem).1
    obtain ⟨cycle, rfl⟩ := Option.ne_none_iff_exists'.mp (hne hmem)
    have hcircular := (hcycle cycle rfl).circular
    refine .inr ⟨hcircular.not_acyclic, cycle.reverse, ?_, hcircular⟩
    rw [PublishOrderGraph.ensureNoPending, hsorted]
    simp only [h.packages_eq, hfound]
    rfl

lemma step {call : Call Name} (hallowed : s.Allowed call) :
    ∃ s', s.step call = .ok s' ∧ Inv packages s' := by
  cases call with
  | next => exact ⟨_, rfl, h.next⟩
  | finish name =>
    obtain ⟨graph, hgraph, hinv⟩ := h.finish hallowed.1 hallowed.2
    refine ⟨_, ?_, hinv⟩
    rw [Schedule.step, hgraph]
    rfl

lemma run {calls : List (Call Name)} (hallowed : s.AllAllowed calls) :
    ∃ s', calls.foldlM Schedule.step s = .ok s' ∧ Inv packages s' := by
  induction calls generalizing s with
  | nil => exact ⟨s, rfl, h⟩
  | cons call calls ih =>
    obtain ⟨t, ht, hinv⟩ := h.step hallowed.1
    obtain ⟨s', hs', hinv'⟩ := ih hinv (hallowed.2 t ht)
    exact ⟨s', foldlM_cons_eq_ok.mpr ⟨t, ht, hs'⟩, hinv'⟩

end Inv

/-- In every schedule of allowed calls, none of them fails; a package is returned once, and after
its dependencies are finished; and when all that was returned is finished and nothing more is
returned, there is nothing pending if and only if there is no circular dependency, and one is named
otherwise. -/
theorem schedule_spec (packages : PackageDeps Name) (calls : List (Call Name))
    (hallowed : (Schedule.start packages).AllAllowed calls) :
    ∃ s, calls.foldlM Schedule.step (.start packages) = .ok s ∧ s.returned.Nodup ∧
      s.graph.next.1.Nodup ∧
      (∀ name ∈ s.graph.next.1, name ∉ s.returned ∧
        ∀ dep, packages.DependsOn name dep → dep ∈ s.finished) ∧
      ((∀ name ∈ s.returned, name ∈ s.finished) → s.graph.next.1 = [] →
        (s.graph.ensureNoPending = .ok () ↔ packages.Acyclic) ∧
        (¬ packages.Acyclic → ∃ path, s.graph.ensureNoPending = .error (.circular path) ∧
          packages.Circular path)) := by
  obtain ⟨s, hs, hinv⟩ := (Inv.start packages).run hallowed
  refine ⟨s, hs, hinv.returned_nodup, hinv.ready_nodup, fun name hname =>
    (hinv.of_mem_ready hname).2, fun hdone hempty => ?_⟩
  rcases hinv.ensureNoPending hdone hempty with ⟨hacyclic, hok⟩ | ⟨hcyclic, path, hpath, hcircular⟩
  · exact ⟨⟨fun _ => hacyclic, fun _ => hok⟩, fun hcyclic => absurd hacyclic hcyclic⟩
  · refine ⟨⟨fun hok => ?_, fun hacyclic => absurd hacyclic hcyclic⟩, fun _ =>
      ⟨path, hpath, hcircular⟩⟩
    rw [hpath] at hok
    cases hok

/-- A package that depends on another one, and one that depends on itself. -/
def samplePackages : PackageDeps ℕ where
  entries := [(0, []), (1, [0]), (2, [2])]
  keys_nodup := by decide
  deps_nodup := by decide
  closed := by decide

theorem schedule_spec_sample : (0, 0) ∈ (buildPublishOrderGraph samplePackages.entries).inDegree ∧
      ∃ s, [Call.next, .finish 0, .next].foldlM Schedule.step (.start samplePackages) = .ok s ∧
        s.returned.Nodup := by
  refine ⟨by decide, ?_⟩
  obtain ⟨s, hs, hnodup, -⟩ := schedule_spec samplePackages [.next, .finish 0, .next] (by
    refine ⟨trivial, ?_⟩
    rintro _ ⟨⟩
    refine ⟨⟨?_, not_mem_nil⟩, fun _ _ => ⟨trivial, fun _ _ => trivial⟩⟩
    exact mem_append_right _ (mem_ready.mpr (by decide)))
  exact ⟨s, hs, hnodup⟩

end Deno.Publish
