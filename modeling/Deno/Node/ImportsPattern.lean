import Deno.Node.ExportsPattern

/-!
# Patterns in package imports

The loop over the keys of `imports` is a second copy of the one over `exports`, with its own
slices: it wants the star of a key in the name, and takes a byte more than the star stands for. So
wherever a key matches, the name is not resolved as it should be.
-/

namespace Deno

open Core List
open String (utf8Len)

variable {key name m : List Char}

lemma strSlice_pre_star (pre post : List Char) :
    strSlice (pre ++ '*' :: post) 0 (utf8Len pre + 1) = .ok (pre ++ ['*']) := by
  have hstop : utf8Len (pre ++ ['*']) = utf8Len pre + 1 := String.utf8Len_append _ _
  have := strSlice_append [] (pre ++ ['*']) post
  rwa [String.utf8Len_nil, Nat.zero_add, hstop, append_assoc] at this

lemma eq_panic_of_slice {text : List Char} {start stop : ℕ} {e : AnyError}
    (h : strSlice text start stop = .error e) : ∃ msg, e = .panic msg := by
  unfold strSlice at h
  split at h
  · cases h
  · cases h
    exact ⟨_, rfl⟩

/-- Everything the body of the loop can do with a key: pass over it, take it with a text that is a
byte too long, or panic. The last two only happen to a key that fits. -/
inductive ImportsRule (name : List Char) (best : BestMatch) (key : List Char) :
    Except AnyError BestMatch → Prop where
  | pass : ImportsRule name best key (.ok best)
  | take (m s : List Char) (hfits : Fits key name m) (hlen : utf8Len s = utf8Len m + 1) :
      ImportsRule name best key (.ok ⟨key, some s⟩)
  | panic (m : List Char) (msg : String) (hfits : Fits key name m) :
      ImportsRule name best key (.error (.panic msg))

theorem ImportsRule.of_importsStep (name : List Char) (best : BestMatch) (key : List Char) :
    ImportsRule name best key (importsStep name best key) := by
  rw [importsStep]
  cases hfind : findByte '*' key with
  | none => exact .pass
  | some index =>
    obtain ⟨pre, post, rfl, hpre, rfl⟩ := eq_append_of_findByte hfind
    have hpost := @strSlice_post pre post '*' rfl
    simp only [strSlice_pre_star, bind, Except.bind, hpost]
    split_ifs with hstarts hcond
    · obtain ⟨hlen, hends, -, hrfind⟩ := hcond
      have hkey : StarKey (pre ++ '*' :: post) pre post :=
        ⟨rfl, hpre, (rfindByte_append hpre).mp hrfind⟩
      have hbegins : pre <+: name :=
        (prefix_append pre ['*']).trans (List.isPrefixOf_iff_prefix.mp hstarts)
      obtain ⟨m, hfits⟩ := (utf8Length.fits_iff hkey).mpr
        ⟨hbegins, List.isSuffixOf_iff_suffix.mp hends, le_of_lt hlen⟩
      obtain ⟨-, pre', post', hkey', htext⟩ := id hfits
      obtain ⟨rfl, rfl⟩ := hkey.unique hkey'
      cases hslice : strSlice name (utf8Len pre) (utf8Len name - utf8Len post + 1) with
      | error e =>
        obtain ⟨msg, rfl⟩ := eq_panic_of_slice hslice
        exact .panic m msg hfits
      | ok s =>
        refine .take m s hfits ?_
        obtain ⟨before, after, -, hbefore, hs⟩ := eq_of_strSlice hslice
        rw [htext, String.utf8Len_append, String.utf8Len_append] at hs
        omega
    · exact .pass
    · exact .pass

/-- What the loop has found: nothing, or a key that fits, with a text that is too long. -/
inductive Found (name : List Char) : BestMatch → Prop where
  | none : Found name ⟨[], .none⟩
  | some (key m s : List Char) (hfits : Fits key name m) (hlen : utf8Len s = utf8Len m + 1) :
      Found name ⟨key, .some s⟩

lemma Found.foldlM {best : BestMatch} (h : Found name best) (keys : List (List Char)) :
    (∃ msg, keys.foldlM (importsStep name) best = .error (.panic msg)) ∨
      ∃ best', keys.foldlM (importsStep name) best = .ok best' ∧ Found name best' := by
  induction keys generalizing best with
  | nil => exact .inr ⟨best, rfl, h⟩
  | cons key keys ih =>
    have hrule := ImportsRule.of_importsStep name best key
    rw [foldlM_cons]
    generalize importsStep name best key = result at hrule ⊢
    cases hrule with
    | pass => exact ih h
    | take m s hfits hlen => exact ih (.some key m s hfits hlen)
    | panic m msg hfits => exact .inl ⟨msg, rfl⟩

lemma foldlM_importsStep_of_not_fits {keys : List (List Char)} (best : BestMatch)
    (hfits : ∀ key ∈ keys, ∀ m, ¬ Fits key name m) :
    keys.foldlM (importsStep name) best = .ok best := by
  induction keys with
  | nil => rfl
  | cons key keys ih =>
    have hrule := ImportsRule.of_importsStep name best key
    rw [foldlM_cons]
    generalize importsStep name best key = result at hrule ⊢
    cases hrule with
    | pass => exact ih fun key' hmem => hfits key' (mem_cons_of_mem _ hmem)
    | take m s hfits' _ | panic m msg hfits' => exact absurd hfits' (hfits key mem_cons_self m)

/-! ### Resolving imports -/

/-- The two errors for a name are told apart by the code at the beginning of their texts. -/
lemma errInvalidModuleSpecifier_ne_throwImportNotDefined {request reason base : String} {dir : Path}
    {referrer : Referrer} : errInvalidModuleSpecifier request reason (some base) ≠
      throwImportNotDefined name (some dir) referrer := by
  intro h
  injection h with _ hmessage
  have hstart := congrArg (fun s => s.toList.take 6) hmessage
  simp at hstart

section

variable {V Url : Type} (resolveTarget : TargetResolver V Url) (referrer : Referrer) (dir : Path)
variable (imports : JsonMap V)

/-- The error for a name that the imports of a package do not define. -/
def foundOrNotDefined (dir : Path) (referrer : Referrer) (name : List Char) :
    Option Url → Except AnyError Url
  | some url => .ok url
  | none => .error (throwImportNotDefined name (some dir) referrer)

/-- The rule of Node for a name that is no key itself, the same as for exports. -/
def FollowsNode (name : List Char) (result : Except AnyError Url) : Prop :=
  (∃ key target m pre post, MostSpecific imports.keys name key ∧ imports.get key = some target ∧
    StarKey key pre post ∧ name = pre ++ (m ++ post) ∧
    result = resolveTarget target m key true true >>= foundOrNotDefined dir referrer name) ∨
  (∀ key ∈ imports.keys, ¬ KeyMatches key name) ∧
    result = .error (throwImportNotDefined name (some dir) referrer)

/-- A resolution of targets that tells keys and texts apart. -/
def probe : TargetResolver V Url := fun _ text key _ _ =>
  .error (.custom (String.ofList ('.' :: key)) (String.ofList text))

/-- What the loop has found is not the text that the star of a key stands for. -/
lemma resolveBestMatch_probe_ne {best : BestMatch} (hfound : Found name best)
    (hfits : Fits key name m) :
    resolveBestMatch probe imports true best >>= foundOrNotDefined dir referrer name ≠
      (.error (.custom (String.ofList ('.' :: key)) (String.ofList m)) : Except AnyError Url) := by
  cases hfound with
  | none =>
    intro h
    injection h with h
    injection h with hclass
    have hchars : "TypeError".toList = '.' :: key := by rw [hclass, String.toList_ofList]
    injection hchars with hchar
    exact absurd hchar (by decide)
  | some key' m' s hfits' hlen =>
    have hne : key' ≠ [] := by
      obtain ⟨-, pre, post, hstar, -⟩ := hfits'
      exact ne_nil_of_mem hstar.mem_star
    simp only [resolveBestMatch, if_pos hne]
    cases imports.get key' with
    | none =>
      intro h
      cases h
    | some target =>
      intro h
      injection h with h
      injection h with hkey htext
      injection String.ofList_injective hkey with _ hkey
      subst hkey
      rw [String.ofList_injective htext, hfits'.unique hfits] at hlen
      omega

variable (hname : name ≠ ['#']) (hslash : ¬ startsWith name ['#', '/'])
variable (hkey : ¬ (name ∈ imports.keys ∧ '*' ∉ name))

include hname hslash hkey

lemma packageImportsResolve_eq (hends : ¬ endsWith name ['/']) :
    packageImportsResolve resolveTarget referrer (some ⟨true, dir, some imports⟩) name =
      (imports.keys.foldlM (importsStep name) ⟨[], none⟩ >>=
        resolveBestMatch resolveTarget imports true) >>= foundOrNotDefined dir referrer name := by
  have hguard : ¬ (name = ['#'] ∨ startsWith name ['#', '/'] ∨ endsWith name ['/']) := by
    rintro (h | h | h)
    · exact hname h
    · exact hslash h
    · exact hends h
  have hdirect : ¬ (imports.containsKey name ∧ '*' ∉ name) := fun h =>
    hkey ⟨of_decide_eq_true h.1, h.2⟩
  rw [packageImportsResolve, if_neg hguard]
  simp only [Option.filter_some, if_true, resolveImports, if_neg hdirect]
  rfl

/-- Where a key matches, the loop does not follow the rule. -/
lemma not_followsNode_probe (hends : ¬ endsWith name ['/']) (hmem : key ∈ imports.keys)
    (hmatch : KeyMatches key name) :
    ¬ FollowsNode (probe : TargetResolver V Url) referrer dir imports name
      (packageImportsResolve probe referrer (some ⟨true, dir, some imports⟩) name) := by
  rw [packageImportsResolve_eq probe referrer dir imports hname hslash hkey hends]
  rintro (⟨key', target, m, pre, post, hspecific, -, hstar, htext, hresult⟩ | ⟨hnone, -⟩)
  · have hfound : Found name ⟨[], none⟩ := .none
    obtain ⟨m', hfits⟩ := keyMatches_iff.mp hspecific.keyMatches
    obtain rfl := hfits.eq_of_append hstar htext
    rcases hfound.foldlM imports.keys with ⟨msg, hfold⟩ | ⟨best, hfold, hbest⟩
    · rw [hfold] at hresult
      cases hresult
    · rw [hfold] at hresult
      exact resolveBestMatch_probe_ne referrer dir imports hbest hfits hresult
  · exact hnone key hmem hmatch

omit hname hslash hkey in
/-- Names with a slash at the end are turned away before the imports are looked at. -/
lemma not_followsNode_of_endsWith (hends : endsWith name ['/']) :
    ¬ FollowsNode (probe : TargetResolver V Url) referrer dir imports name
      (packageImportsResolve probe referrer (some ⟨true, dir, some imports⟩) name) := by
  rw [packageImportsResolve, if_pos (.inr (.inr hends))]
  rintro (⟨key', target, m, pre, post, hspecific, -, hstar, htext, hresult⟩ | ⟨-, hresult⟩)
  · injection hresult with h
    injection h with hclass
    have hchars : "TypeError".toList = '.' :: key' := by rw [hclass, String.toList_ofList]
    injection hchars with hchar
    exact absurd hchar (by decide)
  · injection hresult with h
    exact errInvalidModuleSpecifier_ne_throwImportNotDefined h

/-- Imports follow the rule of Node exactly for the names that no key matches. (Names with a slash
at the end are turned away on purpose.) -/
theorem packageImportsResolve_followsNode_iff :
    (∀ resolveTarget : TargetResolver V Url, FollowsNode resolveTarget referrer dir imports name
      (packageImportsResolve resolveTarget referrer (some ⟨true, dir, some imports⟩) name)) ↔
    ¬ endsWith name ['/'] ∧ ∀ key ∈ imports.keys, ¬ KeyMatches key name := by
  constructor
  · intro h
    have hends : ¬ endsWith name ['/'] := fun hends =>
      not_followsNode_of_endsWith referrer dir imports hends (h probe)
    exact ⟨hends, fun key hmem hmatch =>
      not_followsNode_probe referrer dir imports hname hslash hkey hends hmem hmatch (h probe)⟩
  · rintro ⟨hends, hnone⟩ resolveTarget
    refine .inr ⟨hnone, ?_⟩
    have hfits : ∀ key ∈ imports.keys, ∀ m, ¬ Fits key name m := fun key hmem m hfits =>
      hnone key hmem (keyMatches_iff.mpr ⟨m, hfits⟩)
    rw [packageImportsResolve_eq resolveTarget referrer dir imports hname hslash hkey hends,
      foldlM_importsStep_of_not_fits _ hfits]
    rfl

end

def starImports : JsonMap Unit := ⟨[("#a/*".toList, ())], by decide⟩

/-- A name that the only key does not match. -/
theorem packageImportsResolve_followsNode_iff_other :
    starImports.keys = ["#a/*".toList] ∧ ∀ resolveTarget : TargetResolver Unit String,
      FollowsNode resolveTarget ⟨"file:///p/m.js", "file:///p/m.js"⟩ (.ofString "/p") starImports
        "#b".toList (packageImportsResolve resolveTarget ⟨"file:///p/m.js", "file:///p/m.js"⟩
          (some ⟨true, .ofString "/p", some starImports⟩) "#b".toList) := by
  refine ⟨rfl, (packageImportsResolve_followsNode_iff ⟨"file:///p/m.js", "file:///p/m.js"⟩
    (.ofString "/p") starImports (by decide) (by decide) (by decide)).mpr ⟨by decide, ?_⟩⟩
  rintro key hmem ⟨pre, post, hkey, hpre, -⟩
  obtain rfl := List.mem_singleton.mp hmem
  obtain ⟨rfl, rfl⟩ := hkey.unique (⟨rfl, by decide, by decide⟩ : StarKey _ "#a/".toList [])
  exact absurd hpre (by decide)

/-- The only key matches, but its star is not in the name; where it is, the slice panics. -/
theorem packageImportsResolve_star_not_defined :
    MostSpecific starImports.keys "#a/b".toList "#a/*".toList ∧
    packageImportsResolve (fun _ m _ _ _ => .ok (some m)) ⟨"file:///p/m.js", "file:///p/m.js"⟩
      (some ⟨true, .ofString "/p", some starImports⟩) "#a/b".toList =
      .error (throwImportNotDefined "#a/b".toList (some (.ofString "/p"))
        ⟨"file:///p/m.js", "file:///p/m.js"⟩) ∧
    packageImportsResolve (fun _ m _ _ _ => .ok (some m)) ⟨"file:///p/m.js", "file:///p/m.js"⟩
      (some ⟨true, .ofString "/p", some starImports⟩) "#a/*b".toList =
      .error (.panic "byte index is out of bounds or not a char boundary") := by
  refine ⟨⟨mem_cons_self, ?_, ?_⟩, rfl, rfl⟩
  · exact ⟨"#a/".toList, [], ⟨rfl, by decide, by decide⟩, by decide, by decide, by decide⟩
  · intro key hmem _ hne
    exact absurd (List.mem_singleton.mp hmem) hne

end Deno
