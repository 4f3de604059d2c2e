import Deno.Core.StarPattern
import Deno.Node.PackageKeys

/-!
# Patterns in package exports

The loop over the keys of `exports` keeps the better of two keys, so in the end it has the most
specific one in the order of Node, in whatever order the keys come.
-/

namespace Deno

open Core List
open String (utf8Len)

/-! ### The rule of Node -/

/-- The length of a key up to its star; lengths are those of JavaScript strings. -/
def nodeBaseLength (key : List Char) : ℕ :=
  if '*' ∈ key then utf16Len (key.takeWhile (· ≠ '*')) + 1 else utf16Len key

/-- `PATTERN_KEY_COMPARE`: `-1` if the first key comes first, `1` if the second does. -/
def nodePatternKeyCompare (a b : List Char) : ℤ :=
  if nodeBaseLength a > nodeBaseLength b then -1
  else if nodeBaseLength b > nodeBaseLength a then 1
  else if '*' ∉ a then 1
  else if '*' ∉ b then -1
  else if utf16Len a > utf16Len b then -1
  else if utf16Len b > utf16Len a then 1
  else 0

/-- A key with one star that begins and ends as the subpath does and is no longer. -/
def KeyMatches (key subpath : List Char) : Prop :=
  ∃ pre post, StarKey key pre post ∧ pre <+: subpath ∧ post <:+ subpath ∧
    utf16Len key ≤ utf16Len subpath

/-- The key that comes first of those that match. -/
structure MostSpecific (keys : List (List Char)) (subpath key : List Char) : Prop where
  mem : key ∈ keys
  keyMatches : KeyMatches key subpath
  first : ∀ key' ∈ keys, KeyMatches key' subpath → key' ≠ key → nodePatternKeyCompare key key' = -1

variable {key key' subpath m m' pre post pre' post' : List Char}

lemma keyMatches_iff : KeyMatches key subpath ↔ ∃ m, Fits key subpath m := by
  constructor
  · rintro ⟨pre, post, hkey, h⟩
    exact (utf16Length.fits_iff hkey).mpr h
  · rintro ⟨m, hfits⟩
    obtain ⟨-, pre, post, hkey, -⟩ := id hfits
    exact ⟨pre, post, hkey, (utf16Length.fits_iff hkey).mp ⟨m, hfits⟩⟩

section

variable (h : StarKey key pre post)

include h

/-- For keys with a star the order of Node is that of the lengths of their parts. -/
lemma nodePatternKeyCompare_starKey (h' : StarKey key' pre' post') :
    nodePatternKeyCompare key key' = compareParts utf16Len pre post pre' post' := by
  have hlen : utf16Len key = utf16Len pre + 1 + utf16Len post := utf16Length.len_starKey h
  have hlen' : utf16Len key' = utf16Len pre' + 1 + utf16Len post' := utf16Length.len_starKey h'
  simp only [nodePatternKeyCompare, nodeBaseLength, h.mem_star, h'.mem_star,
    if_true, h.takeWhile_eq, h'.takeWhile_eq, not_true_eq_false, if_false, hlen,
    hlen', compareParts]
  split_ifs <;> omega

/-! ### The comparison in the code -/

lemma findByte_starKey : findByte '*' key = some (utf8Len pre) := by
  rw [h.eq, findByte_append h.pre]

lemma patternKeyCompare_starKey (h' : StarKey key' pre' post') :
    patternKeyCompare key key' = compareParts utf8Len pre post pre' post' := by
  have hlen : utf8Len key = utf8Len pre + 1 + utf8Len post := utf8Length.len_starKey h
  have hlen' : utf8Len key' = utf8Len pre' + 1 + utf8Len post' := utf8Length.len_starKey h'
  simp only [patternKeyCompare, findByte_starKey h, findByte_starKey h', Option.isNone_some,
    Bool.false_eq_true, if_false, hlen, hlen', compareParts]
  split_ifs <;> omega

end

section

variable (hfits : Fits key subpath m) (hfits' : Fits key' subpath m')

include hfits hfits'

lemma patternKeyCompare_eq_one_iff : patternKeyCompare key key' = 1 ↔ rank key < rank key' := by
  obtain ⟨-, pre, post, h, -⟩ := id hfits
  obtain ⟨-, pre', post', h', -⟩ := id hfits'
  rw [patternKeyCompare_starKey h h']
  exact (utf8Length.compareParts_eq_iff h h' hfits hfits').1

lemma nodePatternKeyCompare_eq_neg_one_iff :
    nodePatternKeyCompare key key' = -1 ↔ rank key' < rank key := by
  obtain ⟨-, pre, post, h, -⟩ := id hfits
  obtain ⟨-, pre', post', h', -⟩ := id hfits'
  rw [nodePatternKeyCompare_starKey h h']
  exact (utf16Length.compareParts_eq_iff h h' hfits hfits').2

end

/-! ### Slices -/

lemma strSlice_append (before s after : List Char) :
    strSlice (before ++ (s ++ after)) (utf8Len before) (utf8Len before + utf8Len s) = .ok s := by
  rw [strSlice, sliceBytes_append]

lemma eq_of_strSlice {text s : List Char} {start stop : ℕ} (h : strSlice text start stop = .ok s) :
    ∃ before after, text = before ++ (s ++ after) ∧ utf8Len before = start ∧
      utf8Len before + utf8Len s = stop := by
  unfold strSlice at h
  split at h
  · next hslice =>
    cases h
    exact eq_of_sliceBytes hslice
  · cases h

lemma strSlice_pre (pre post : List Char) : strSlice (pre ++ post) 0 (utf8Len pre) = .ok pre := by
  have := strSlice_append [] pre post
  rwa [String.utf8Len_nil, Nat.zero_add] at this

lemma strSlice_post (pre post : List Char) {c : Char} (hc : c.utf8Size = 1 := by rfl) :
    strSlice (pre ++ c :: post) (utf8Len pre + 1) (utf8Len (pre ++ c :: post)) = .ok post := by
  have hstart : utf8Len (pre ++ [c]) = utf8Len pre + 1 := by
    rw [String.utf8Len_append, String.utf8Len_cons, hc, String.utf8Len_nil]
  have hstop : utf8Len (pre ++ c :: post) = utf8Len pre + 1 + utf8Len post := by
    rw [← hstart, ← String.utf8Len_append, append_assoc, singleton_append]
  have := strSlice_append (pre ++ [c]) post []
  rwa [append_nil, append_assoc, hstart, ← hstop] at this

/-! ### The loop -/

lemma exportsStep_of_fits (best : BestMatch) (hfits : Fits key subpath m) :
    exportsStep subpath best key =
      .ok (if patternKeyCompare best.key key = 1 then ⟨key, some m⟩ else best) := by
  obtain ⟨hm, pre, post, h, htext⟩ := id hfits
  obtain ⟨hpre, hpost, hlen⟩ := (utf8Length.fits_iff h).mp ⟨m, hfits⟩
  have hfind := findByte_starKey h
  have hstop : utf8Len subpath - utf8Len post = utf8Len pre + utf8Len m := by
    rw [htext, String.utf8Len_append, String.utf8Len_append]
    omega
  have hrfind : rfindByte '*' key = some (utf8Len pre) := by
    rw [h.eq, rfindByte_append h.pre]
    exact h.post
  have hslice : strSlice subpath (utf8Len pre) (utf8Len pre + utf8Len m) = .ok m := by
    rw [htext, strSlice_append]
  have hstarts : startsWith subpath pre = true := List.isPrefixOf_iff_prefix.mpr hpre
  have hends : endsWith subpath post = true := List.isSuffixOf_iff_suffix.mpr hpost
  have hlen' : utf8Len subpath ≥ utf8Len key := hlen
  have hsub : strSlice key 0 (utf8Len pre) = .ok pre := by rw [h.eq, strSlice_pre]
  have htrailer : strSlice key (utf8Len pre + 1) (utf8Len key) = .ok post := by rw [h.eq, strSlice_post]
  rw [exportsStep, hfind]
  simp only [hsub, bind, Except.bind, hstarts, if_true, htrailer, hlen', hends, true_and, hrfind,
    and_true, hstop, hslice]
  split_ifs <;> rfl

lemma exportsStep_of_not_fits (best : BestMatch) (hfits : ∀ m, ¬ Fits key subpath m) :
    exportsStep subpath best key = .ok best := by
  rw [exportsStep]
  cases hfind : findByte '*' key with
  | none => rfl
  | some index =>
    obtain ⟨pre, post, rfl, hpre, rfl⟩ := eq_append_of_findByte hfind
    simp only [strSlice_pre, bind, Except.bind]
    split_ifs with hstarts
    · rw [strSlice_post]
      dsimp only
      rw [if_neg]
      · rfl
      · -- all conditions together would make it fit
        rintro ⟨hlen, hends, -, hrfind⟩
        have hkey : StarKey (pre ++ '*' :: post) pre post :=
          ⟨rfl, hpre, (rfindByte_append hpre).mp hrfind⟩
        obtain ⟨m, hm⟩ := (utf8Length.fits_iff hkey).mpr
          ⟨List.isPrefixOf_iff_prefix.mp hstarts, List.isSuffixOf_iff_suffix.mp hends, hlen⟩
        exact hfits m hm
    · rfl

/-- What the loop has found among the keys: none that fits, or the one of highest rank. -/
inductive Chosen (keys : List (List Char)) (subpath : List Char) : BestMatch → Prop where
  | none (hnone : ∀ key ∈ keys, ∀ m, ¬ Fits key subpath m) : Chosen keys subpath ⟨[], .none⟩
  | some (key m : List Char) (hmem : key ∈ keys) (hfits : Fits key subpath m)
      (hbest : ∀ key' ∈ keys, ∀ m', Fits key' subpath m' → key' ≠ key → rank key' < rank key) :
      Chosen keys subpath ⟨key, .some m⟩

variable {keys keys' : List (List Char)} {best best' : BestMatch}

lemma Chosen.exportsStep (h : Chosen keys subpath best) (key : List Char) :
    ∃ best', Deno.exportsStep subpath best key = .ok best' ∧
      Chosen (keys ++ [key]) subpath best' := by
  by_cases hfits : ∃ m, Fits key subpath m
  · obtain ⟨m, hfits⟩ := hfits
    refine ⟨_, exportsStep_of_fits best hfits, ?_⟩
    cases h with
    | none hnone =>
      obtain ⟨-, pre, post, hkey, -⟩ := id hfits
      rw [if_pos (by simp [patternKeyCompare, findByte_starKey hkey, findByte])]
      refine .some key m (mem_append_right _ mem_cons_self) hfits ?_
      rw [forall_mem_append, forall_mem_singleton]
      exact ⟨fun key' hmem m' hfits' => absurd hfits' (hnone key' hmem m'),
        fun _ _ hne => absurd rfl hne⟩
    | some key₀ m₀ hmem₀ hfits₀ hbest₀ =>
      simp only [patternKeyCompare_eq_one_iff hfits₀ hfits]
      split_ifs with hlt
      · refine .some key m (mem_append_right _ mem_cons_self) hfits ?_
        rw [forall_mem_append, forall_mem_singleton]
        refine ⟨fun key' hmem m' hfits' _ => ?_, fun _ _ hne => absurd rfl hne⟩
        by_cases heq : key' = key₀
        · rw [heq]
          exact hlt
        · exact (hbest₀ key' hmem m' hfits' heq).trans hlt
      · refine .some key₀ m₀ (mem_append_left _ hmem₀) hfits₀ ?_
        rw [forall_mem_append, forall_mem_singleton]
        refine ⟨hbest₀, fun m' hfits' hne => lt_of_le_of_ne (not_lt.mp hlt) fun heq => ?_⟩
        exact hne (eq_of_rank_eq hfits' hfits₀ heq)
  · rw [not_exists] at hfits
    refine ⟨best, exportsStep_of_not_fits best hfits, ?_⟩
    cases h with
    | none hnone =>
      refine .none ?_
      rw [forall_mem_append, forall_mem_singleton]
      exact ⟨hnone, hfits⟩
    | some key₀ m₀ hmem₀ hfits₀ hbest₀ =>
      refine .some key₀ m₀ (mem_append_left _ hmem₀) hfits₀ ?_
      rw [forall_mem_append, forall_mem_singleton]
      exact ⟨hbest₀, fun m' hfits' => absurd hfits' (hfits m')⟩

lemma Chosen.foldlM (h : Chosen keys subpath best) (more : List (List Char)) :
    ∃ best', more.foldlM (Deno.exportsStep subpath) best = .ok best' ∧
      Chosen (keys ++ more) subpath best' := by
  induction more generalizing keys best with
  | nil =>
    refine ⟨best, rfl, ?_⟩
    rw [append_nil]
    exact h
  | cons key more ih =>
    obtain ⟨best₁, hstep, h₁⟩ := h.exportsStep key
    obtain ⟨best₂, hfold, h₂⟩ := ih h₁
    refine ⟨best₂, ?_, ?_⟩
    · rw [foldlM_cons, hstep]
      exact hfold
    · rw [append_cons]
      exact h₂

theorem exists_chosen (keys : List (List Char)) (subpath : List Char) :
    ∃ best, keys.foldlM (exportsStep subpath) ⟨[], none⟩ = .ok best ∧ Chosen keys subpath best :=
  Chosen.foldlM (.none fun _ hmem => absurd hmem not_mem_nil) keys

/-- What is chosen depends on which keys there are only. -/
lemma Chosen.unique (h : Chosen keys subpath best) (h' : Chosen keys' subpath best')
    (hmem : ∀ key, key ∈ keys ↔ key ∈ keys') : best = best' := by
  cases h with
  | none hnone =>
    cases h' with
    | none _ => rfl
    | some key m hkey hfits _ => exact absurd hfits (hnone key ((hmem key).mpr hkey) m)
  | some key m hkey hfits hbest =>
    cases h' with
    | none hnone => exact absurd hfits (hnone key ((hmem key).mp hkey) m)
    | some key' m' hkey' hfits' hbest' =>
      obtain rfl : key = key' := by
        by_contra hne
        have hlt := hbest key' ((hmem key').mpr hkey') m' hfits' (Ne.symm hne)
        exact lt_asymm hlt (hbest' key ((hmem key).mp hkey) m hfits hne)
      rw [hfits.unique hfits']

/-! ### Resolving exports -/

section

variable {V Url : Type} (resolveTarget : TargetResolver V Url) (packageDir : Path)
variable (referrer : Referrer) (mode : NodeResolutionMode) (packageExports : JsonMap V)

/-- The error for a subpath that a package does not export. -/
def foundOrNotExported (packageDir : Path) (referrer : Referrer) (mode : NodeResolutionMode)
    (packageSubpath : List Char) : Option Url → Except AnyError Url
  | some url => .ok url
  | none => .error (throwExportsNotFound packageSubpath packageDir referrer mode)

lemma packageExportsResolve_eq (hkey : ¬ (subpath ∈ packageExports.keys ∧ '*' ∉ subpath))
    {best : BestMatch}
    (hbest : packageExports.keys.foldlM (exportsStep subpath) ⟨[], none⟩ = .ok best) :
    packageExportsResolve resolveTarget packageDir referrer mode packageExports subpath =
      resolveBestMatch resolveTarget packageExports false best >>=
        foundOrNotExported packageDir referrer mode subpath := by
  have hdirect : ¬ (packageExports.containsKey subpath ∧ (findByte '*' subpath).isNone ∧
      ¬ endsWith subpath ['/']) := by
    rintro ⟨hmem, hstar, -⟩
    rw [Option.isNone_iff_eq_none, findByte_eq_none] at hstar
    exact hkey ⟨of_decide_eq_true hmem, hstar⟩
  rw [packageExportsResolve, if_neg hdirect, hbest]
  rfl

/-- Resolution through patterns follows Node: the most specific key that matches is used, with
exactly the text its star stands for; a subpath is not exported if no key matches, or if the
target of that key resolves to nothing; the order of the keys does not matter. -/
theorem packageExportsResolve_spec (hkey : ¬ (subpath ∈ packageExports.keys ∧ '*' ∉ subpath)) :
    (∀ other : JsonMap V, packageExports.entries.Perm other.entries →
      packageExportsResolve resolveTarget packageDir referrer mode other subpath =
        packageExportsResolve resolveTarget packageDir referrer mode packageExports subpath) ∧
    ((∃ key target m pre post, MostSpecific packageExports.keys subpath key ∧
        packageExports.get key = some target ∧ StarKey key pre post ∧
        subpath = pre ++ (m ++ post) ∧
        packageExportsResolve resolveTarget packageDir referrer mode packageExports subpath =
          resolveTarget target m key true false >>=
            foundOrNotExported packageDir referrer mode subpath) ∨
      (∀ key ∈ packageExports.keys, ¬ KeyMatches key subpath) ∧
        packageExportsResolve resolveTarget packageDir referrer mode packageExports subpath =
          .error (throwExportsNotFound subpath packageDir referrer mode)) := by
  obtain ⟨best, hfold, hchosen⟩ := exists_chosen packageExports.keys subpath
  refine ⟨fun other hperm => ?_, ?_⟩
  · obtain ⟨best', hfold', hchosen'⟩ := exists_chosen other.keys subpath
    have hmem : ∀ key, key ∈ packageExports.keys ↔ key ∈ other.keys := fun key =>
      (hperm.map Prod.fst).mem_iff
    obtain rfl := hchosen.unique hchosen' hmem
    have hkey' : ¬ (subpath ∈ other.keys ∧ '*' ∉ subpath) := by rwa [← hmem]
    rw [packageExportsResolve_eq resolveTarget packageDir referrer mode packageExports hkey hfold,
      packageExportsResolve_eq resolveTarget packageDir referrer mode other hkey' hfold',
      resolveBestMatch, resolveBestMatch, JsonMap.get_eq_of_perm hperm]
  · rw [packageExportsResolve_eq resolveTarget packageDir referrer mode packageExports hkey hfold]
    cases hchosen with
    | none hnone =>
      refine .inr ⟨fun key hmem hmatch => ?_, rfl⟩
      obtain ⟨m, hfits⟩ := keyMatches_iff.mp hmatch
      exact hnone key hmem m hfits
    | some key m hmem hfits hbest =>
      obtain ⟨target, htarget⟩ := JsonMap.exists_get_of_mem_keys hmem
      obtain ⟨-, pre, post, hstar, htext⟩ := id hfits
      have hspecific : MostSpecific packageExports.keys subpath key := by
        refine ⟨hmem, keyMatches_iff.mpr ⟨m, hfits⟩, fun key' hmem' hmatch hne => ?_⟩
        obtain ⟨m', hfits'⟩ := keyMatches_iff.mp hmatch
        exact (nodePatternKeyCompare_eq_neg_one_iff hfits hfits').mpr
          (hbest key' hmem' m' hfits' hne)
      have hne : key ≠ [] := ne_nil_of_mem hstar.mem_star
      refine .inl ⟨key, target, m, pre, post, hspecific, htarget, hstar, htext, ?_⟩
      rw [resolveBestMatch]
      rw [if_pos hne, htarget]
      rfl

end

lemma keyMatches_star : KeyMatches "./*".toList "./a".toList :=
  ⟨"./".toList, [], ⟨rfl, by decide, by decide⟩, by decide, by decide, by decide⟩

/-- A subpath that the key `./*` matches. -/
theorem packageExportsResolve_spec_star : ∃ key m, MostSpecific ["./*".toList] "./a".toList key ∧
    packageExportsResolve (fun _ m _ _ _ => .ok (some m)) (.ofString "/p") ⟨"file:///m.js", "/m.js"⟩
      .execution ⟨[("./*".toList, ())], by decide⟩ "./a".toList = .ok m := by
  have hkey : ¬ ("./a".toList ∈ ["./*".toList] ∧ '*' ∉ "./a".toList) := by decide
  obtain ⟨-, ⟨key, -, m, -, -, hspecific, -, -, -, hresolve⟩ | ⟨hnone, -⟩⟩ :=
    packageExportsResolve_spec (fun _ m _ _ _ => .ok (some m)) (.ofString "/p")
      ⟨"file:///m.js", "/m.js"⟩ .execution ⟨[("./*".toList, ())], by decide⟩ hkey
  · exact ⟨key, m, hspecific, hresolve⟩
  · exact absurd keyMatches_star (hnone _ mem_cons_self)

/-- A key matches, but its target is `null`: the subpath is not exported. -/
theorem packageExportsResolve_null_target : KeyMatches "./*".toList "./a".toList ∧
    packageExportsResolve (fun _ _ _ _ _ => .ok none : TargetResolver Unit String)
      (.ofString "/p") ⟨"file:///m.js", "/m.js"⟩ .execution ⟨[("./*".toList, ())], by decide⟩
      "./a".toList = .error (throwExportsNotFound "./a".toList (.ofString "/p") ⟨"file:///m.js", "/m.js"⟩
        .execution) :=
  ⟨keyMatches_star, rfl⟩

end Deno
