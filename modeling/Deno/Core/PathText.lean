import Deno.Core.Path
import Deno.Core.Split

/-!
# Texts of paths

How the text of a path and its components go together.
-/

namespace Core.Path

open List

/-! ### Components of a text -/

/-- The components of a text that stands behind a separator. -/
def components (text : List Char) : List Component :=
  (text.splitOn '/').filterMap fun w => componentOfSegment (String.ofList w)

structure IsName (w : List Char) : Prop where
  ne_nil : w ≠ []
  ne_dot : w ≠ ['.']
  ne_dots : w ≠ ['.', '.']
  noSlash : '/' ∉ w

/-- Induction over the parts of a text between separators. -/
@[elab_as_elim]
theorem segments_ind {motive : List Char → Prop} (last : ∀ w, '/' ∉ w → motive w)
    (cons : ∀ w rest, '/' ∉ w → motive rest → motive (w ++ '/' :: rest)) (text : List Char) :
    motive text := parts_ind '/' last cons text

def named (w : List Char) : Component := .normal (String.ofList w)

variable {text w : List Char} {ns : List (List Char)} {p q : Path}

lemma ext (h : p.comps = q.comps) : p = q := by
  cases p
  cases h
  rfl

lemma named_injective : Function.Injective named := fun _ _ h =>
  String.ofList_injective (Component.normal.inj h)

lemma components_append (a b : List Char) :
    components (a ++ '/' :: b) = components a ++ components b := by
  rw [components, splitOn_append_cons_self, filterMap_append]
  rfl

lemma components_cons_slash (a : List Char) : components ('/' :: a) = components a :=
  components_append [] a

lemma components_of_notMem (h : '/' ∉ w) :
    components w = (componentOfSegment (String.ofList w)).toList := by
  rw [components, splitOn_eq_singleton h, filterMap_cons]
  cases componentOfSegment (String.ofList w) <;> rfl

lemma componentOfSegment_ofList_eq_parentDir :
    componentOfSegment (String.ofList w) = some .parentDir ↔ w = ['.', '.'] := by
  have hdots : String.ofList w = ".." ↔ w = ['.', '.'] := String.ofList_inj
  have hempty : String.ofList w = "" ↔ w = [] := String.ofList_inj
  have hdot : String.ofList w = "." ↔ w = ['.'] := String.ofList_inj
  simp only [componentOfSegment, hdots, hempty, hdot]
  split_ifs with h h'
  · rcases h with rfl | rfl <;> simp
  · simp [h']
  · simp [h']

lemma componentOfSegment_eq_named (hnil : w ≠ []) (hdot : w ≠ ['.']) (hdots : w ≠ ['.', '.']) :
    componentOfSegment (String.ofList w) = some (named w) := by
  have hnil' : String.ofList w ≠ "" := fun heq => hnil (String.ofList_inj.mp heq)
  have hdot' : String.ofList w ≠ "." := fun heq => hdot (String.ofList_inj.mp heq)
  have hdots' : String.ofList w ≠ ".." := fun heq => hdots (String.ofList_inj.mp heq)
  rw [componentOfSegment, if_neg (not_or.mpr ⟨hnil', hdot'⟩), if_neg hdots']
  rfl

lemma IsName.components (h : IsName w) : components w = [named w] := by
  rw [components_of_notMem h.noSlash, componentOfSegment_eq_named h.ne_nil h.ne_dot h.ne_dots]
  rfl

lemma comps_ofString_name (h : IsName w) : (ofString (String.ofList w)).comps = [named w] := by
  have hnil : String.ofList w ≠ "" := fun heq => h.ne_nil (String.ofList_inj.mp heq)
  have hdot : String.ofList w ≠ "." := fun heq => h.ne_dot (String.ofList_inj.mp heq)
  rw [ofString, String.toList_ofList, splitOn_eq_singleton h.noSlash, map_singleton, ofSegments,
    if_neg hnil, if_neg hdot]
  simp [componentOfSegment_eq_named h.ne_nil h.ne_dot h.ne_dots]

lemma comps_join_name (p : Path) (h : IsName w) :
    (p.join (.ofString (String.ofList w))).comps = p.comps ++ [named w] := by
  have hcomps := comps_ofString_name h
  rw [comps_join p (by simp [hcomps, named]), hcomps]

lemma components_intercalate (h : ∀ w ∈ ns, IsName w) :
    components (['/'].intercalate ns) = ns.map named := by
  induction ns with
  | nil => rfl
  | cons w ws ih =>
    have hw := (h w mem_cons_self).components
    cases ws with
    | nil => rwa [intercalate_singleton]
    | cons w' ws' =>
      rw [intercalate_cons_cons, append_assoc, singleton_append, components_append,
        hw, ih fun w hw => h w (mem_cons_of_mem _ hw)]
      rfl

lemma parentDir_mem_components : .parentDir ∈ components text ↔ ['.', '.'] ∈ text.splitOn '/' := by
  rw [components, mem_filterMap]
  constructor
  · rintro ⟨w, hw, h⟩
    rwa [componentOfSegment_ofList_eq_parentDir.mp h] at hw
  · intro h
    exact ⟨_, h, componentOfSegment_ofList_eq_parentDir.mpr rfl⟩

/-! ### Names of a text -/

/-- The texts between separators that are not passed over. -/
def names (text : List Char) : List (List Char) :=
  (text.splitOn '/').filter fun w => w ≠ [] ∧ w ≠ ['.']

section

variable (hdots : ['.', '.'] ∉ text.splitOn '/')

include hdots

lemma isName_of_mem_names (h : w ∈ names text) : IsName w := by
  rw [names, mem_filter, decide_eq_true_eq] at h
  exact ⟨h.2.1, h.2.2, fun heq => hdots (heq ▸ h.1), notMem_of_mem_splitOn h.1⟩

lemma components_eq_map_named : components text = (names text).map named := by
  rw [components, names]
  generalize text.splitOn '/' = ws at hdots
  induction ws with
  | nil => rfl
  | cons w ws ih =>
    rw [mem_cons, not_or] at hdots
    rw [filterMap_cons, filter_cons]
    by_cases hw : w ≠ [] ∧ w ≠ ['.']
    · rw [componentOfSegment_eq_named hw.1 hw.2 (Ne.symm hdots.1), ih hdots.2,
        if_pos (decide_eq_true hw)]
      rfl
    · have hnone : componentOfSegment (String.ofList w) = none := by
        rw [not_and_or, not_ne_iff, not_ne_iff] at hw
        rcases hw with rfl | rfl <;> decide
      rw [hnone, ih hdots.2, if_neg (by simpa using hw)]

end

variable {c : Char}

lemma mem_iff_exists_mem_names (hslash : c ≠ '/') (hdot : c ≠ '.') :
    c ∈ text ↔ ∃ w ∈ names text, c ∈ w := by
  have hsplit : c ∈ text ↔ ∃ w ∈ text.splitOn '/', c ∈ w := by
    induction text using segments_ind with
    | last v hv => simp [splitOn_eq_singleton hv]
    | cons v rest hv ih =>
      rw [splitOn_append_cons_self_of_not_mem hv]
      simp [hslash, ih]
  rw [hsplit]
  constructor
  · rintro ⟨w, hw, hc⟩
    refine ⟨w, List.mem_filter.mpr ⟨hw, decide_eq_true ⟨ne_nil_of_mem hc, ?_⟩⟩, hc⟩
    rintro rfl
    exact hdot (List.mem_singleton.mp hc)
  · rintro ⟨w, hw, hc⟩
    exact ⟨w, (List.mem_filter.mp hw).1, hc⟩

lemma mem_names_of_named_mem (h : named w ∈ components text) : w ∈ names text := by
  obtain ⟨v, hv, hcomponent⟩ := List.mem_filterMap.mp h
  rw [componentOfSegment] at hcomponent
  split_ifs at hcomponent with hpassed
  · cases hcomponent
  · obtain rfl := named_injective (Option.some.inj hcomponent)
    refine List.mem_filter.mpr ⟨hv, decide_eq_true ⟨?_, ?_⟩⟩
    · rintro rfl
      exact hpassed (.inl rfl)
    · rintro rfl
      exact hpassed (.inr rfl)

/-- A name with a character other than a dot is a component. -/
lemma named_mem_of_mem_names (h : w ∈ names text) (hc : c ∈ w) (hdot : c ≠ '.') :
    named w ∈ components text := by
  obtain ⟨hmem, hname⟩ := List.mem_filter.mp h
  rw [decide_eq_true_eq] at hname
  refine List.mem_filterMap.mpr ⟨w, hmem, componentOfSegment_eq_named hname.1 hname.2 ?_⟩
  rintro rfl
  simp_all

/-- How often a character occurs in a text, name by name. -/
lemma count_eq_sum_names (hslash : c ≠ '/') (hdot : c ≠ '.') (text : List Char) :
    text.count c = ((names text).map (List.count c)).sum := by
  have hsplit : text.count c = ((text.splitOn '/').map (List.count c)).sum := by
    induction text using segments_ind with
    | last v hv => simp [splitOn_eq_singleton hv]
    | cons v rest hv ih =>
      rw [splitOn_append_cons_self_of_not_mem hv, count_append,
        count_cons_of_ne (Ne.symm hslash), ih, map_cons, sum_cons]
  rw [hsplit, names]
  generalize text.splitOn '/' = ws
  induction ws with
  | nil => rfl
  | cons w ws ih =>
    rw [filter_cons, map_cons, sum_cons, ih]
    split_ifs with hw
    · rfl
    · have hzero : w.count c = 0 := by
        rw [decide_eq_true_eq, not_and_or, not_ne_iff, not_ne_iff] at hw
        rcases hw with rfl | rfl
        · rfl
        · simp [Ne.symm hdot]
      rw [hzero, Nat.zero_add]

/-! ### Paths of texts -/

lemma comps_ofString_slash (text : List Char) :
    (ofString (String.ofList ('/' :: text))).comps = .rootDir :: components text := by
  have hsplit : ('/' :: text).splitOn '/' = [] :: text.splitOn '/' :=
    splitOn_append_cons_self [] text
  have hne : (text.splitOn '/').map String.ofList ≠ [] := by simp
  rw [ofString, String.toList_ofList, hsplit, map_cons, ofSegments, if_neg hne]
  simp only [filterMap_map]
  rfl

lemma comps_ofString_dot (text : List Char) :
    (ofString (String.ofList ('.' :: '/' :: text))).comps = .curDir :: components text := by
  have hsplit : ('.' :: '/' :: text).splitOn '/' = ['.'] :: text.splitOn '/' :=
    splitOn_append_cons_self ['.'] text
  rw [ofString, String.toList_ofList, hsplit, map_cons, ofSegments]
  simp only [filterMap_map]
  rfl

lemma ne_of_mem_components {c : Component} (h : c ∈ components text) :
    c ≠ .rootDir ∧ c ≠ .curDir := by
  obtain ⟨w, -, hw⟩ := List.mem_filterMap.mp h
  exact componentOfSegment_ne hw

lemma comps_ofString_cons (hc : c ≠ '/') (text : List Char) :
    (ofString (String.ofList (c :: text))).comps = components (c :: text) ∨
      (ofString (String.ofList (c :: text))).comps = .curDir :: components (c :: text) := by
  obtain ⟨w, ws, hw⟩ := exists_cons_of_ne_nil (splitOn_ne_nil '/' text)
  have hsplit : (c :: text).splitOn '/' = (c :: w) :: ws := by
    rw [splitOn_cons_eq_if_modifyHead, hw]
    simp [hc]
  have hne : String.ofList (c :: w) ≠ "" := by
    intro heq
    cases String.ofList_inj.mp heq
  rw [components, ofString, String.toList_ofList, hsplit, map_cons, ofSegments, if_neg hne]
  split_ifs with hdot
  · right
    dsimp only
    rw [filterMap_cons, hdot, filterMap_map]
    rfl
  · left
    dsimp only
    rw [← map_cons, filterMap_map]
    rfl

lemma exists_of_isAbsolute_ofString (h : (ofString (String.ofList text)).isAbsolute) :
    ∃ rest, text = '/' :: rest := by
  cases text with
  | nil => exact absurd h (by decide)
  | cons c cs =>
    by_cases hc : c = '/'
    · exact ⟨cs, by rw [hc]⟩
    · rw [isAbsolute, beq_iff_eq] at h
      rcases comps_ofString_cons hc cs with hcomps | hcomps
      · rw [hcomps] at h
        exact absurd rfl (ne_of_mem_components (mem_of_head? h)).1
      · rw [hcomps] at h
        cases h

/-- Behind a path that is not empty, a relative path is the components of its text. -/
lemma interior_ofString (h : (ofString (String.ofList text)).isAbsolute = false) :
    (ofString (String.ofList text)).interior = components text := by
  have hfilter : (components text).filter (fun c => c ≠ .rootDir ∧ c ≠ .curDir) =
      components text := List.filter_eq_self.mpr fun c hc => by
    simpa using ne_of_mem_components hc
  cases text with
  | nil => rfl
  | cons c cs =>
    by_cases hc : c = '/'
    · rw [hc, isAbsolute, comps_ofString_slash] at h
      cases h
    · rw [interior]
      rcases comps_ofString_cons hc cs with hcomps | hcomps
      · rw [hcomps, hfilter]
      · rw [hcomps, filter_cons_of_neg (by simp), hfilter]

lemma toList_display (h : p.comps = .rootDir :: ns.map named) :
    p.display.toList = '/' :: ['/'].intercalate ns := by
  rw [display, h]
  cases ns with
  | nil => rfl
  | cons w ws =>
    simp [Component.text, named, Function.comp_def]

end Core.Path
