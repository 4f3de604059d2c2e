import Deno.Core.ExceptLoop
import Deno.Coverage.MergeFunctions

/-!
# The order of the profiles

Profiles are grouped by url and functions by their root range, and both maps are iterated in the
order of their keys. So the order of the profiles shows in nothing but the order in which the
functions of one group are merged, which does not matter to their ranges.
-/

namespace Deno

open Core RangeTree List FunctionCoverage ProcessCoverage

/-! ### Running over two lists -/

section

variable {ε α α' β β' : Type} {as : List α} {as' : List α'} {S : α → α' → Prop}

lemma mapM_forall₂ {R : β → β' → Prop} {f : α → Except ε β}
    {f' : α' → Except ε β'} (h : List.Forall₂ S as as')
    (hf : ∀ a ∈ as, ∀ a', S a a' → ∃ b b', f a = .ok b ∧ f' a' = .ok b' ∧ R b b') :
    ∃ bs bs', as.mapM f = .ok bs ∧ as'.mapM f' = .ok bs' ∧ List.Forall₂ R bs bs' := by
  induction h with
  | nil => exact ⟨[], [], rfl, rfl, .nil⟩
  | @cons a a' as as' ha _ ih =>
    obtain ⟨b, b', hb, hb', hR⟩ := hf a mem_cons_self a' ha
    obtain ⟨bs, bs', hbs, hbs', hRs⟩ := ih fun a ha => hf a (mem_cons_of_mem _ ha)
    refine ⟨b :: bs, b' :: bs', ?_, ?_, .cons hR hRs⟩
    · rw [mapM_cons, hb, hbs]
      rfl
    · rw [mapM_cons, hb', hbs']
      rfl

lemma forall₂_zipIdx (h : List.Forall₂ S as as') (n : ℕ) :
    List.Forall₂ (fun p p' => S p.1 p'.1 ∧ p.2 = p'.2) (as.zipIdx n) (as'.zipIdx n) := by
  induction h generalizing n with
  | nil => exact .nil
  | cons ha _ ih => exact .cons ⟨ha, rfl⟩ (ih (n + 1))

lemma map_eq_map_of_forall₂ {γ : Type} {g : α → γ} {g' : α' → γ}
    (h : List.Forall₂ (fun a a' => g a = g' a') as as') : as.map g = as'.map g' := by
  induction h with
  | nil => rfl
  | cons ha _ ih => rw [map_cons, map_cons, ha, ih]

end

variable {κ : Type}

/-! ### Scripts -/

/-- Well-formed ranges of machine-sized offsets. -/
def FunctionCoverage.WF (func : FunctionCoverage κ) : Prop :=
  RangesWF func.ranges ∧ ∀ r ∈ func.ranges, r.endCharOffset ≤ usizeMax

instance (func : FunctionCoverage κ) : Decidable func.WF := inferInstanceAs (Decidable (_ ∧ _))

def rootOf (func : FunctionCoverage κ) : CharRange :=
  match func.ranges with
  | [] => ⟨0, 0⟩
  | range :: _ => ⟨range.startCharOffset, range.endCharOffset⟩

variable {func : FunctionCoverage κ}

lemma FunctionCoverage.WF.rootRange_eq (h : func.WF) : rootRange func = .ok (rootOf func) := by
  unfold rootRange rootOf
  cases hr : func.ranges with
  | nil => exact absurd hr h.1.nonempty
  | cons range ranges => rfl

lemma FunctionCoverage.WF.hasRoot (h : func.WF) :
    HasRoot func.ranges (rootOf func).start (rootOf func).stop ∧ (rootOf func).stop ≤ usizeMax := by
  obtain ⟨hwf, husize⟩ := h
  unfold rootOf HasRoot
  cases hr : func.ranges with
  | nil => exact absurd hr hwf.nonempty
  | cons range ranges =>
    rw [hr] at husize
    exact ⟨rfl, husize range mem_cons_self⟩

variable [AddCommGroup κ] [DecidableEq κ]

section

variable (ord : IterOrder (ℕ × List (RangeTree κ)))

/-- The functions of some scripts, merged by their root ranges. -/
def mergeByRoot (funcs : List (FunctionCoverage κ)) : Except AnyError (List (FunctionCoverage κ)) :=
  (OrdMap.group (funcs.map fun func => (rootOf func, func))).entries.mapM fun (_, funcs) =>
    unwrapMerged (mergeFunctions ord funcs)

lemma mergeScripts_eq {script script' : ScriptCoverage κ} {scripts : List (ScriptCoverage κ)}
    (hwf : ∀ func ∈ (script :: script' :: scripts).flatMap (·.functions), func.WF)
    {functions : List (FunctionCoverage κ)}
    (h : mergeByRoot ord ((script :: script' :: scripts).flatMap (·.functions)) = .ok functions) :
    mergeScripts ord (script :: script' :: scripts) =
      .ok (some ⟨script.scriptId, script.url, functions⟩) := by
  have hkeyed : ((script :: script' :: scripts).flatMap (·.functions)).mapM
      (fun func => (do return ((← rootRange func), func) : Except AnyError _)) =
        .ok (((script :: script' :: scripts).flatMap (·.functions)).map fun func =>
          (rootOf func, func)) := by
    refine mapM_eq_ok_map fun func hfunc => ?_
    rw [(hwf func hfunc).rootRange_eq]
    rfl
  unfold mergeScripts
  simp only [hkeyed]
  exact congrArg (fun r => r >>= fun functions =>
    pure (some (⟨script.scriptId, script.url, functions⟩ : ScriptCoverage κ))) h

end

/-- The functions of permuted scripts have the same merged ranges. -/
lemma mergeByRoot_perm (ord ord' : IterOrder (ℕ × List (RangeTree κ)))
    {funcs funcs' : List (FunctionCoverage κ)} (hwf : ∀ func ∈ funcs, func.WF)
    (hperm : funcs.Perm funcs') :
    ∃ fs fs', mergeByRoot ord funcs = .ok fs ∧ mergeByRoot ord' funcs' = .ok fs' ∧
      fs.map view = fs'.map view := by
  have hgroups := OrdMap.group_perm (hperm.map fun func => (rootOf func, func))
  have hstep : ∀ entry ∈ (OrdMap.group (funcs.map fun func => (rootOf func, func))).entries,
      ∀ entry' : CharRange × List (FunctionCoverage κ), entry.1 = entry'.1 ∧ entry.2.Perm entry'.2 →
        ∃ f f', unwrapMerged (mergeFunctions ord entry.2) = .ok f ∧
          unwrapMerged (mergeFunctions ord' entry'.2) = .ok f' ∧ f.view = f'.view := by
    rintro ⟨root, group⟩ hentry ⟨root', group'⟩ ⟨rfl, hgroup⟩
    obtain ⟨hne, hmem⟩ := OrdMap.mem_of_mem_group hentry
    have hpairs : ∀ func ∈ group, func.WF ∧ rootOf func = root := by
      intro func hfunc
      obtain ⟨func', hfunc', heq⟩ := List.mem_map.mp (hmem func hfunc)
      cases heq
      exact ⟨hwf func hfunc', rfl⟩
    have hsame : SameRoot root.start root.stop group := by
      intro func hfunc
      obtain ⟨hfwf, rfl⟩ := hpairs func hfunc
      exact ⟨hfwf.1, hfwf.hasRoot.1⟩
    obtain ⟨func, hfunc⟩ := exists_mem_of_ne_nil _ hne
    have husize : root.stop ≤ usizeMax := by
      obtain ⟨hfwf, rfl⟩ := hpairs func hfunc
      exact hfwf.hasRoot.2
    obtain ⟨f, f', hf, hf', hview⟩ := mergeFunctions_view_perm ord ord' hsame husize hne hgroup
    exact ⟨f, f', by rw [hf]; rfl, by rw [hf']; rfl, hview⟩
  obtain ⟨fs, fs', hfs, hfs', hview⟩ := mapM_forall₂ hgroups hstep
  exact ⟨fs, fs', hfs, hfs', map_eq_map_of_forall₂ hview⟩

variable {scripts scripts' : List (ScriptCoverage κ)}

/-- Merging the scripts of one url in another order: the result has the url, and its functions
have the same ranges. -/
lemma mergeScripts_perm (ord ord' : IterOrder (ℕ × List (RangeTree κ))) {url : String}
    (hurl : ∀ script ∈ scripts, script.url = url)
    (hwf : ∀ script ∈ scripts, ∀ func ∈ script.functions, func.WF) (hne : scripts ≠ [])
    (hperm : scripts.Perm scripts') :
    ∃ s s', mergeScripts ord scripts = .ok (some s) ∧ mergeScripts ord' scripts' = .ok (some s') ∧
      s.url = url ∧ s'.url = url ∧
      s.functions.map view = s'.functions.map view := by
  match scripts, scripts', hperm with
  | [], _, _ => exact absurd rfl hne
  | [script], _, hperm =>
    rw [← List.singleton_perm.mp hperm]
    have := hurl script mem_cons_self
    exact ⟨script, script, rfl, rfl, this, this, rfl⟩
  | _ :: _ :: _, [], hperm | _ :: _ :: _, [_], hperm => exact absurd hperm.length_eq (by simp)
  | script₁ :: script₂ :: scripts, script₁' :: script₂' :: scripts', hperm =>
    have hfuncs : ∀ func ∈ (script₁ :: script₂ :: scripts).flatMap (·.functions), func.WF := by
      intro func hfunc
      obtain ⟨script, hscript, hmem⟩ := List.mem_flatMap.mp hfunc
      exact hwf script hscript func hmem
    have hflat := hperm.flatMap_right fun script : ScriptCoverage κ => script.functions
    obtain ⟨fs, fs', hfs, hfs', hview⟩ := mergeByRoot_perm ord ord' hfuncs hflat
    refine ⟨_, _, mergeScripts_eq ord hfuncs hfs,
      mergeScripts_eq ord' (fun func hfunc => hfuncs func (hflat.mem_iff.mpr hfunc)) hfs',
      hurl script₁ mem_cons_self, ?_, hview⟩
    exact hurl script₁' (hperm.mem_iff.mpr mem_cons_self)

/-! ### Processes -/

/-- The range lists of the functions that a profile has for a url, in no order. -/
def ProcessCoverage.rangeLists (url : String) (process : ProcessCoverage κ) :
    Multiset (List (CoverageRange κ)) :=
  (process.result.filter fun script => script.url = url).flatMap fun script =>
    script.functions.map (·.ranges)

def ProcessesWF (processes : List (ProcessCoverage κ)) : Prop :=
  ∀ process ∈ processes, ∀ script ∈ process.result, ∀ func ∈ script.functions, func.WF

instance (processes : List (ProcessCoverage κ)) : Decidable (ProcessesWF processes) :=
  inferInstanceAs (Decidable (∀ process ∈ processes, ∀ script ∈ process.result,
    ∀ func ∈ script.functions, func.WF))

/-- Scripts with the same urls and ranges, one by one. -/
def SameRanges (script script' : ScriptCoverage κ) : Prop :=
  script.url = script'.url ∧ script.functions.map view = script'.functions.map view

omit [AddCommGroup κ] [DecidableEq κ] in
lemma rangeLists_eq {result result' : List (ScriptCoverage κ)}
    (h : List.Forall₂ SameRanges result result') (url : String) :
    rangeLists url ⟨result⟩ = rangeLists url ⟨result'⟩ := by
  unfold rangeLists
  congr 1
  induction h with
  | nil => rfl
  | @cons script script' result result' hsame _ ih =>
    obtain ⟨hurl, hviews⟩ := hsame
    have hranges : script.functions.map (·.ranges) = script'.functions.map (·.ranges) := by
      have := congrArg (List.map Prod.fst) hviews
      rwa [map_map, map_map] at this
    rw [filter_cons, filter_cons, hurl]
    split_ifs
    · rw [flatMap_cons, flatMap_cons, hranges]
      exact congrArg _ ih
    · exact ih

section

variable (ord : IterOrder (ℕ × List (RangeTree κ)))

/-- The scripts of a url as one script with the given number. -/
def mergeEntry
    (entry : (String × List (ScriptCoverage κ)) × ℕ) : Except AnyError (ScriptCoverage κ) := do
  let merged ← unwrapMerged (mergeScripts ord entry.1.2)
  return { merged with scriptId := toString entry.2 }

def mergeByUrl (scripts : List (ScriptCoverage κ)) : Except AnyError (List (ScriptCoverage κ)) :=
  (OrdMap.group (scripts.map fun script => (script.url, script))).entries.zipIdx.mapM
    (mergeEntry ord)

lemma mergeProcesses_eq
    {process process' : ProcessCoverage κ} {processes : List (ProcessCoverage κ)}
    {result : List (ScriptCoverage κ)}
    (h : mergeByUrl ord ((process :: process' :: processes).flatMap (·.result)) = .ok result) :
    mergeProcesses ord (process :: process' :: processes) = .ok (some ⟨result⟩) :=
  congrArg (fun r => r >>= fun result => pure (some (⟨result⟩ : ProcessCoverage κ))) h

end

section

variable (ord ord' : IterOrder (ℕ × List (RangeTree κ)))

include ord ord'

lemma mergeEntry_perm
    {all : List (ScriptCoverage κ)} (hwf : ∀ script ∈ all, ∀ func ∈ script.functions, func.WF)
    {entry entry' : (String × List (ScriptCoverage κ)) × ℕ}
    (hentry : entry.1 ∈ (OrdMap.group (all.map fun script => (script.url, script))).entries)
    (hperm : entry.1.2.Perm entry'.1.2) :
    ∃ s s', mergeEntry ord entry = .ok s ∧ mergeEntry ord' entry' = .ok s' ∧ SameRanges s s' := by
  obtain ⟨hne, hmem⟩ := OrdMap.mem_of_mem_group hentry
  have hpairs : ∀ script ∈ entry.1.2, script ∈ all ∧ script.url = entry.1.1 := by
    intro script hscript
    obtain ⟨script', hscript', heq⟩ := List.mem_map.mp (hmem script hscript)
    obtain ⟨hurl, rfl⟩ := Prod.mk.inj heq
    exact ⟨hscript', hurl⟩
  obtain ⟨s, s', hs, hs', hurl, hurl', hviews⟩ := mergeScripts_perm ord ord'
    (fun script h => (hpairs script h).2) (fun script h => hwf script (hpairs script h).1) hne hperm
  refine ⟨{ s with scriptId := toString entry.2 }, { s' with scriptId := toString entry'.2 },
    ?_, ?_, hurl.trans hurl'.symm, hviews⟩
  · rw [mergeEntry, hs]
    rfl
  · rw [mergeEntry, hs']
    rfl

lemma mergeByUrl_perm (hwf : ∀ script ∈ scripts, ∀ func ∈ script.functions, func.WF)
    (hperm : scripts.Perm scripts') :
    ∃ result result', mergeByUrl ord scripts = .ok result ∧ mergeByUrl ord' scripts' = .ok result' ∧
      List.Forall₂ SameRanges result result' := by
  have hgroups := OrdMap.group_perm (hperm.map fun script => (script.url, script))
  refine mapM_forall₂ (forall₂_zipIdx hgroups 0) fun entry hentry entry' h => ?_
  exact mergeEntry_perm ord ord' hwf (fst_mem_of_mem_zipIdx hentry) h.1.2

lemma mergeProcesses_perm
    {processes processes' : List (ProcessCoverage κ)} (hwf : ProcessesWF processes)
    (hperm : processes.Perm processes') :
    ∃ r r', mergeProcesses ord processes = .ok r ∧ mergeProcesses ord' processes' = .ok r' ∧
      ∀ url, r.map (rangeLists url) = r'.map (rangeLists url) := by
  match processes, processes', hperm with
  | [], _, hperm =>
    rw [List.nil_perm.mp hperm]
    exact ⟨none, none, rfl, rfl, fun _ => rfl⟩
  | [process], _, hperm =>
    rw [← List.singleton_perm.mp hperm]
    exact ⟨some process, some process, rfl, rfl, fun _ => rfl⟩
  | _ :: _ :: _, [], hperm | _ :: _ :: _, [_], hperm => exact absurd hperm.length_eq (by simp)
  | process₁ :: process₂ :: processes, process₁' :: process₂' :: processes', hperm =>
    have hscripts : ∀ script ∈ (process₁ :: process₂ :: processes).flatMap (·.result),
        ∀ func ∈ script.functions, func.WF := by
      intro script hscript
      obtain ⟨process, hprocess, hmem⟩ := List.mem_flatMap.mp hscript
      exact hwf process hprocess script hmem
    obtain ⟨result, result', hr, hr', hsame⟩ := mergeByUrl_perm ord ord' hscripts
      (hperm.flatMap_right fun process => process.result)
    exact ⟨_, _, mergeProcesses_eq ord hr, mergeProcesses_eq ord' hr',
      fun url => congrArg some (rangeLists_eq hsame url)⟩

end

/-- The order of the profiles does not matter. Functions that share a root merge to the same
ranges in every order; merging permuted profiles yields, for each url, the same range lists. -/
theorem merge_perm (ord ord' : IterOrder (ℕ × List (RangeTree κ))) :
    (∀ (s e : ℕ) (funcs funcs' : List (FunctionCoverage κ)), SameRoot s e funcs → e ≤ usizeMax →
      funcs.Perm funcs' →
      ∃ r r', mergeFunctions ord funcs = .ok r ∧ mergeFunctions ord' funcs' = .ok r' ∧
        r.map (fun f => (f.ranges, f.isBlockCoverage)) =
          r'.map fun f => (f.ranges, f.isBlockCoverage)) ∧
    ∀ processes processes' : List (ProcessCoverage κ), ProcessesWF processes →
      processes.Perm processes' →
      ∃ r r', mergeProcesses ord processes = .ok r ∧ mergeProcesses ord' processes' = .ok r' ∧
        ∀ url, r.map (rangeLists url) = r'.map (rangeLists url) := by
  refine ⟨fun s e funcs funcs' hwf he hperm => ?_, fun _ _ => mergeProcesses_perm ord ord'⟩
  by_cases hne : funcs = []
  · subst hne
    rw [List.nil_perm.mp hperm]
    exact ⟨none, none, rfl, rfl, rfl⟩
  · obtain ⟨f, f', hf, hf', hview⟩ := mergeFunctions_view_perm ord ord' hwf he hne hperm
    exact ⟨some f, some f', hf, hf', congrArg some hview⟩

/-- Two profiles of one script, in both orders. -/
theorem merge_perm_overlapping :
    let f : FunctionCoverage ℤ := ⟨"lib", [⟨0, 9, 10⟩, ⟨2, 5, 1⟩], true⟩
    let g : FunctionCoverage ℤ := ⟨"lib", [⟨0, 9, 20⟩, ⟨4, 7, 2⟩], true⟩
    let p : ProcessCoverage ℤ := ⟨[⟨"0", "/lib.js", [f]⟩]⟩
    let q : ProcessCoverage ℤ := ⟨[⟨"0", "/lib.js", [g]⟩]⟩
    (∃ r r', mergeFunctions (IterOrder.insertion _) [f, g] = .ok r ∧
      mergeFunctions (IterOrder.insertion _) [g, f] = .ok r' ∧
      r.map (fun f => (f.ranges, f.isBlockCoverage)) =
        r'.map fun f => (f.ranges, f.isBlockCoverage)) ∧
    ∃ r r', mergeProcesses (IterOrder.insertion _) [p, q] = .ok r ∧
      mergeProcesses (IterOrder.insertion _) [q, p] = .ok r' ∧
      ∀ url, r.map (rangeLists url) = r'.map (rangeLists url) :=
  ⟨(merge_perm _ _).1 0 9 _ _ (by decide) (by decide) (List.Perm.swap _ _ _),
    (merge_perm _ _).2 _ _ (by decide) (List.Perm.swap _ _ _)⟩

end Deno
