import Deno.Fetch.Headers

/-!
# Splitting a header at its commas

A combined value is split at the commas outside of quoted strings. The scanner and the collector of
quoted strings share a position.
-/

namespace Deno.Fetch

open Core List

def comma : UInt16 := unit ','

/-- Neither the start of a quoted string nor the end of a value. -/
def isValueText (c : UInt16) : Bool := c != quotationMark && c != comma

def splitLoop (input : JsString) (position : ℕ) (values : List JsString) (value : JsString) :
    Except AnyError (List JsString) :=
  if hpos : position < input.length then
    let res := collectSequenceOfCodepoints input position isValueText
    let value := value ++ res.1
    if hres : res.2 < input.length then
      if input[res.2] = quotationMark then
        match hquoted : collectHttpQuotedString input res.2 false with
        | .error e => .error e
        | .ok (text, behind) =>
          if behind < input.length then splitLoop input behind values (value ++ text)
          else splitLoop input behind (values ++ [between httpTabOrSpace (value ++ text)]) []
      else if input[res.2] ≠ comma then .error (typeError "Unreachable")
      else splitLoop input (res.2 + 1) (values ++ [between httpTabOrSpace value]) []
    else splitLoop input res.2 (values ++ [between httpTabOrSpace value]) []
  else .ok values
termination_by input.length - position
decreasing_by
  all_goals have hle : position ≤ res.2 := Nat.le_add_right _ _
  · have hlt := collectHttpQuotedString_lt hquoted
    omega
  · omega
  · change input.length - (res.2 + 1) < _
    omega
  · change input.length - res.2 < _
    omega

def getDecodeSplitHeader (list : HeaderList) (name : JsString) :
    Except AnyError (Option (List JsString)) :=
  match getHeader list name with
  | none => .ok none
  | some initialValue => some <$> splitLoop initialValue 0 [] []

/-! ### Values made of text and quoted strings -/

/-- A part of a value: text without commas and quotation marks, or a quoted string. -/
inductive Segment where
  | text (s : JsString) (h : s.all isValueText)
  | quoted (body : List QuotedPiece)

def Segment.render : Segment → JsString
  | .text s _ => s
  | .quoted body => Deno.quoted body

def renderValue (segments : List Segment) : JsString := segments.flatMap Segment.render

/-- What the loop collects for a part, with what is behind it: after a quoted string it has the
next code point as well. -/
def Segment.scanned (after : JsString) : Segment → JsString
  | .text s _ => s
  | .quoted body => Deno.quoted body ++ after.take 1

/-- What the loop collects for a value, with what is behind it. -/
def scanned (after : JsString) : List Segment → JsString
  | [] => []
  | segment :: segments => segment.scanned (renderValue segments ++ after) ++ scanned after segments

/-! ### What the loop does with a value -/

section

variable {input after value : JsString} {position : ℕ} {values : List JsString} {c : UInt16}

lemma lt_length_of_drop_ne_nil (h : input.drop position ≠ []) : position < input.length := by
  by_contra hge
  exact h (drop_eq_nil_of_le (not_lt.mp hge))

lemma splitLoop_end (hinput : input.drop position = []) :
    splitLoop input position values value = .ok values := by
  rw [splitLoop, dif_neg (not_lt.mpr (List.drop_eq_nil_iff.mp hinput))]

lemma splitLoop_plain (hinput : input.drop position = c :: after) (hc : isValueText c)
    (hafter : after ≠ []) :
    splitLoop input position values value =
      splitLoop input (position + 1) values (value ++ [c]) := by
  have hlt : position + 1 < input.length :=
    lt_length_of_drop_ne_nil (by rw [drop_succ hinput]; exact hafter)
  rw [splitLoop, splitLoop, dif_pos hlt, dif_pos (lt_length_of_drop hinput),
    collectSequenceOfCodepoints_cons hinput hc]
  simp

lemma splitLoop_comma (hinput : input.drop position = comma :: after) :
    splitLoop input position values value =
      splitLoop input (position + 1) (values ++ [between httpTabOrSpace value]) [] := by
  rw [splitLoop, collectSequenceOfCodepoints_stop hinput rfl]
  simp [lt_length_of_drop hinput, getElem_position hinput, show comma ≠ quotationMark by decide]

lemma splitLoop_text {s : JsString} (hs : s.all isValueText)
    (hinput : input.drop position = s ++ after) (hafter : after ≠ []) :
    splitLoop input position values value =
      splitLoop input (position + s.length) values (value ++ s) := by
  induction s generalizing position value with
  | nil => simp
  | cons c s ih =>
    rw [all_cons, Bool.and_eq_true] at hs
    rw [splitLoop_plain hinput hs.1 (by simp [hafter]), ih hs.2 (drop_succ hinput)]
    simp [Nat.add_assoc, Nat.add_comm 1]

lemma splitLoop_text_end {s : JsString} (hs : s.all isValueText) (hne : s ≠ [])
    (hinput : input.drop position = s) :
    splitLoop input position values value = .ok (values ++ [between httpTabOrSpace (value ++ s)]) := by
  have hlength : position + s.length = input.length := by
    have := congrArg List.length hinput
    have hlt := lt_length_of_drop_ne_nil (hinput ▸ hne)
    rw [length_drop] at this
    omega
  have hskip : collectSequenceOfCodepoints input position isValueText = (s, input.length) := by
    rw [collectSequenceOfCodepoints, hinput, List.takeWhile_eq_self_iff.mpr (List.all_eq_true.mp hs),
      hlength]
  rw [splitLoop, dif_pos (lt_length_of_drop_ne_nil (hinput ▸ hne)), hskip]
  simp [splitLoop_end]

lemma splitLoop_quoted {body : List QuotedPiece}
    (hinput : input.drop position = quoted body ++ after) :
    splitLoop input position values value =
      if after = [] then .ok (values ++ [between httpTabOrSpace (value ++ quoted body)])
      else splitLoop input (position + (quoted body).length) values
        (value ++ (quoted body ++ after.take 1)) := by
  have hbehind := drop_add_length hinput
  rw [splitLoop, collectSequenceOfCodepoints_stop hinput rfl]
  simp only [lt_length_of_drop hinput, getElem_position hinput, dite_true, if_true]
  rw [collectHttpQuotedString_text body hinput]
  split_ifs with hafter
  · rw [hafter] at hbehind
    simp [not_lt.mpr (List.drop_eq_nil_iff.mp hbehind), splitLoop_end hbehind, hafter]
  · simp [lt_length_of_drop_ne_nil (hbehind ▸ hafter)]

lemma splitLoop_segment {segment : Segment} (hinput : input.drop position = segment.render ++ after)
    (hafter : after ≠ []) :
    splitLoop input position values value =
      splitLoop input (position + segment.render.length) values
        (value ++ segment.scanned after) := by
  cases segment with
  | text s h => exact splitLoop_text h hinput hafter
  | quoted body => rw [splitLoop_quoted hinput, if_neg hafter]; rfl

lemma splitLoop_segment_end {segment : Segment} (hinput : input.drop position = segment.render)
    (hne : segment.render ≠ []) :
    splitLoop input position values value =
      .ok (values ++ [between httpTabOrSpace (value ++ segment.scanned [])]) := by
  cases segment with
  | text s h => exact splitLoop_text_end h hne hinput
  | quoted body =>
    rw [splitLoop_quoted (hinput.trans (append_nil _).symm), if_pos rfl, Segment.scanned, take_nil,
      append_nil]

lemma renderValue_cons (segment : Segment) (segments : List Segment) :
    renderValue (segment :: segments) = segment.render ++ renderValue segments := flatMap_cons

variable {segments : List Segment}

lemma scanned_eq_nil (h : renderValue segments = []) : scanned after segments = [] := by
  induction segments with
  | nil => rfl
  | cons segment segments ih =>
    rw [renderValue_cons, append_eq_nil_iff] at h
    cases segment with
    | text s _ =>
      rw [scanned, ih h.2, append_nil]
      exact h.1
    | quoted body => exact absurd h.1 (cons_ne_nil _ _)

lemma scanned_cons (segments : List Segment) : scanned (c :: after) segments = scanned [c] segments := by
  induction segments with
  | nil => rfl
  | cons segment segments ih =>
    have htake : (renderValue segments ++ c :: after).take 1 = (renderValue segments ++ [c]).take 1 := by
      cases renderValue segments with
      | nil | cons d ds => rfl
    cases segment with
    | text s _ => rw [scanned, ih]; rfl
    | quoted body => rw [scanned, scanned, ih, Segment.scanned, Segment.scanned, htake]

lemma splitLoop_value
    (hinput : input.drop position = renderValue segments ++ after) (hafter : after ≠ []) :
    splitLoop input position values value =
      splitLoop input (position + (renderValue segments).length) values
        (value ++ scanned after segments) := by
  induction segments generalizing position value with
  | nil => simp [renderValue, scanned]
  | cons segment segments ih =>
    rw [renderValue_cons, append_assoc] at hinput
    have hrest : renderValue segments ++ after ≠ [] := by simp [hafter]
    rw [splitLoop_segment hinput hrest, ih (drop_add_length hinput), renderValue_cons]
    simp [scanned, Nat.add_assoc]

lemma splitLoop_last (hinput : input.drop position = renderValue segments)
    (hne : renderValue segments ≠ []) : splitLoop input position values value =
      .ok (values ++ [between httpTabOrSpace (value ++ scanned [] segments)]) := by
  induction segments generalizing position value with
  | nil => exact absurd rfl hne
  | cons segment segments ih =>
    rw [renderValue_cons] at hinput hne
    by_cases hrest : renderValue segments = []
    · rw [hrest, append_nil] at hinput hne
      rw [splitLoop_segment_end hinput hne, scanned, scanned_eq_nil hrest, hrest]
      simp
    · rw [splitLoop_segment hinput hrest, ih (drop_add_length hinput) hrest]
      simp [scanned]

lemma splitLoop_values (before : List (List Segment)) {last : List Segment}
    (hinput : input.drop position =
      before.flatMap (fun v => renderValue v ++ [comma]) ++ renderValue last)
    (hne : renderValue last ≠ []) :
    splitLoop input position values [] =
      .ok (values ++ before.map (fun v => between httpTabOrSpace (scanned [comma] v)) ++
        [between httpTabOrSpace (scanned [] last)]) := by
  induction before generalizing position values with
  | nil =>
    rw [map_nil, append_nil]
    exact splitLoop_last hinput hne
  | cons v before ih =>
    simp only [flatMap_cons, append_assoc, cons_append, nil_append] at hinput
    have hcomma := drop_add_length hinput
    rw [splitLoop_value hinput (cons_ne_nil _ _), splitLoop_comma hcomma,
      ih (drop_succ hcomma), scanned_cons]
    simp

end

/-! ### When the values are right -/

section

variable {chars : CodePoints} {a b x : JsString} {q : UInt16}

lemma stripSuffix_append (chars : CodePoints) (a x : JsString) : stripSuffix chars (a ++ x) =
    if stripSuffix chars x = [] then stripSuffix chars a else a ++ stripSuffix chars x := by
  simp only [stripSuffix, rdropWhile, reverse_append, dropWhile_append, List.isEmpty_iff,
    reverse_eq_nil_iff]
  split_ifs
  · rfl
  · simp

lemma stripSuffix_append_cons (hq : ¬regexMatcher chars q) :
    stripSuffix chars (a ++ q :: x) = a ++ q :: stripSuffix chars x := by
  have hlast : stripSuffix chars (a ++ [q]) = a ++ [q] := rdropWhile_concat_neg _ _ _ hq
  rw [append_cons, stripSuffix_append, hlast]
  split_ifs with hx
  · rw [hx]
  · simp

lemma between_append_cons (hq : ¬regexMatcher chars q) :
    between chars (a ++ q :: x) = stripPrefix chars a ++ q :: stripSuffix chars x := by
  have hprefix : stripPrefix chars (a ++ q :: x) = stripPrefix chars a ++ q :: x := by
    rw [stripPrefix, dropWhile_append, dropWhile_cons_of_neg hq]
    split_ifs with hempty
    · rw [stripPrefix, List.isEmpty_iff.mp hempty, nil_append]
    · rfl
  rw [between, hprefix, stripSuffix_append_cons hq]

lemma stripSuffix_sublist (h : a.Sublist b) :
    (stripSuffix chars a).Sublist (stripSuffix chars b) := by
  have hsub : (stripSuffix chars a).Sublist
      (stripSuffix chars b ++ b.rtakeWhile (regexMatcher chars)) := by
    rw [stripSuffix, stripSuffix, rdropWhile_append_rtakeWhile]
    exact (List.rdropWhile_prefix _ _).sublist.trans h
  obtain ⟨x, y, heq, hx, hy⟩ := List.sublist_append_iff.mp hsub
  rcases eq_nil_or_concat y with rfl | ⟨y, c, rfl⟩
  · rwa [heq, append_nil]
  · have hne : stripSuffix chars a ≠ [] := by simp [heq]
    have hc : regexMatcher chars c := mem_rtakeWhile_imp (hy.subset (by simp))
    have hlast : (stripSuffix chars a).getLast hne = c := by simp [heq]
    exact absurd (hlast ▸ hc) (rdropWhile_last_not _ _ hne)

lemma stripSuffix_eq_nil : stripSuffix chars a = [] ↔ ∀ c ∈ a, regexMatcher chars c :=
  rdropWhile_eq_nil_iff

end

section

variable {after : JsString} {segments : List Segment}

lemma renderValue_sublist_scanned : (renderValue segments).Sublist (scanned after segments) := by
  induction segments with
  | nil => exact .refl _
  | cons segment segments ih =>
    refine List.Sublist.append ?_ ih
    cases segment with
    | text s _ => exact .refl _
    | quoted body => exact sublist_append_left _ _

lemma scanned_of_forall (h : ∀ c ∈ renderValue segments, regexMatcher httpTabOrSpace c) :
    scanned after segments = renderValue segments := by
  induction segments with
  | nil => rfl
  | cons segment segments ih =>
    rw [renderValue_cons, forall_mem_append] at h
    cases segment with
    | text s _ => rw [scanned, ih h.2]; rfl
    | quoted body => exact absurd (h.1 quotationMark mem_cons_self) (by decide)

/-- What is behind a quoted string is stripped as it should be only if nothing is left of it. -/
lemma stripSuffix_scanned_iff (hafter : ∀ c ∈ after.head?, ¬regexMatcher httpTabOrSpace c) :
    stripSuffix httpTabOrSpace ((renderValue segments ++ after).take 1 ++ scanned after segments) =
        stripSuffix httpTabOrSpace (renderValue segments) ↔
      (∀ c ∈ renderValue segments, regexMatcher httpTabOrSpace c) ∧
        (renderValue segments ≠ [] ∨ after = []) := by
  by_cases hspace : ∀ c ∈ renderValue segments, regexMatcher httpTabOrSpace c
  · rw [scanned_of_forall hspace, stripSuffix_eq_nil.mpr hspace, stripSuffix_eq_nil]
    cases hrest : renderValue segments with
    | nil =>
      cases after with
      | nil => simp
      | cons c after => simpa using hafter c rfl
    | cons c rest =>
      rw [hrest] at hspace
      simp [hspace c mem_cons_self]
  · refine iff_of_false (fun heq => ?_) fun h => hspace h.1
    obtain ⟨c, rest, hrest⟩ : ∃ c rest, renderValue segments = c :: rest := by
      cases hrest : renderValue segments with
      | nil => exact absurd (hrest ▸ forall_mem_nil _) hspace
      | cons c rest => exact ⟨c, rest, rfl⟩
    have hsub : (stripSuffix httpTabOrSpace (renderValue segments)).Sublist
        (stripSuffix httpTabOrSpace (scanned after segments)) :=
      stripSuffix_sublist renderValue_sublist_scanned
    have hne : stripSuffix httpTabOrSpace (scanned after segments) ≠ [] := by
      intro hnil
      rw [hnil, sublist_nil, stripSuffix_eq_nil] at hsub
      exact hspace hsub
    have htake : (renderValue segments ++ after).take 1 = [c] := by simp [hrest]
    -- the code point that was read twice stays, so the lengths differ
    rw [htake, stripSuffix_append, if_neg hne] at heq
    have hle := hsub.length_le
    rw [← heq, length_append, length_singleton] at hle
    omega

/-- A quoted string of a value has only tabs and spaces behind it, and at least one of them unless
the value is the last one. -/
def QuotedAtEnd (isLast : Bool) : List Segment → Prop
  | [] => True
  | .text _ _ :: segments => QuotedAtEnd isLast segments
  | .quoted _ :: segments =>
    (∀ c ∈ renderValue segments, regexMatcher httpTabOrSpace c) ∧
      (renderValue segments ≠ [] ∨ isLast)

/-- What the loop collects for a value is right, up to tabs and spaces. -/
lemma between_scanned_iff (isLast : Bool) (t : JsString) :
    between httpTabOrSpace (t ++ scanned (if isLast then [] else [comma]) segments) =
        between httpTabOrSpace (t ++ renderValue segments) ↔
      QuotedAtEnd isLast segments := by
  induction segments generalizing t with
  | nil => simp [scanned, renderValue, QuotedAtEnd]
  | cons segment segments ih =>
    cases segment with
    | text s h =>
      rw [scanned, renderValue_cons, Segment.scanned, Segment.render, ← append_assoc,
        ← append_assoc, ih, QuotedAtEnd]
    | quoted body =>
      have hquote : ¬regexMatcher httpTabOrSpace quotationMark := by decide
      have hcomma : ¬regexMatcher httpTabOrSpace comma := by decide
      have hsplit : ∀ x, t ++ (quoted body ++ x) =
          (t ++ quotationMark :: body.flatMap QuotedPiece.render) ++ quotationMark :: x := by
        simp [quoted]
      have hafter : ∀ c ∈ (if isLast then [] else [comma]).head?,
          ¬regexMatcher httpTabOrSpace c := by
        cases isLast <;> simp [hcomma]
      rw [scanned, renderValue_cons, Segment.scanned, Segment.render, append_assoc, hsplit,
        hsplit, between_append_cons hquote, between_append_cons hquote, append_cancel_left_eq,
        cons_inj_right, stripSuffix_scanned_iff hafter, QuotedAtEnd]
      cases isLast <;> simp

end

lemma intercalate_map_concat {α : Type*} (sep : JsString) (f : α → JsString) (before : List α)
    (last : α) :
    sep.intercalate ((before ++ [last]).map f) = before.flatMap (fun a => f a ++ sep) ++ f last := by
  induction before with
  | nil => simp
  | cons a before ih =>
    rw [flatMap_cons, append_assoc, ← ih]
    cases before with
    | nil | cons b before => simp

/-- The values of a header that is made of texts and quoted strings. -/
lemma getDecodeSplitHeader_eq {list : HeaderList} {name : JsString} (before : List (List Segment))
    (last : List Segment) (hlast : renderValue last ≠ []) (hcombined : getHeader list name =
      some ([comma].intercalate ((before ++ [last]).map renderValue))) :
    getDecodeSplitHeader list name =
      .ok (some (before.map (fun v => between httpTabOrSpace (scanned [comma] v)) ++
        [between httpTabOrSpace (scanned [] last)])) := by
  rw [getDecodeSplitHeader, hcombined, intercalate_map_concat]
  dsimp only
  rw [splitLoop_values before drop_zero hlast]
  rfl

/-- A header that is made of texts and quoted strings is split into its values without the tabs and
spaces around them, if the quoted strings are at the ends of the values. -/
theorem getDecodeSplitHeader_iff (list : HeaderList) (name : JsString)
    (before : List (List Segment)) (last : List Segment) (hlast : renderValue last ≠ [])
    (hcombined : getHeader list name =
      some ([comma].intercalate ((before ++ [last]).map renderValue))) :
    getDecodeSplitHeader list name =
        .ok (some ((before ++ [last]).map fun v => between httpTabOrSpace (renderValue v))) ↔
      (∀ v ∈ before, QuotedAtEnd false v) ∧ QuotedAtEnd true last := by
  have hbefore : before.map (fun v => between httpTabOrSpace (scanned [comma] v)) =
      before.map (fun v => between httpTabOrSpace (renderValue v)) ↔
        ∀ v ∈ before, QuotedAtEnd false v := by
    rw [map_inj_left]
    exact forall₂_congr fun v _ => between_scanned_iff false []
  rw [getDecodeSplitHeader_eq before last hlast hcombined, Except.ok.injEq, Option.some.injEq,
    map_append, ← hbefore, ← between_scanned_iff true []]
  constructor
  · intro heq
    obtain ⟨hinit, htail⟩ := append_inj' heq rfl
    exact ⟨hinit, (List.cons.inj htail).1⟩
  · rintro ⟨hinit, htail⟩
    rw [hinit]
    exact congrArg (fun v => before.map _ ++ [v]) htail

/-- Two quoted strings, of which the first one has a comma in it and a space behind it. -/
theorem getDecodeSplitHeader_two_values :
    getDecodeSplitHeader [(js "X", js "\"a,\" , \"b\"")] (js "x") =
      .ok (some [js "\"a,\"", js "\"b\""]) :=
  (getDecodeSplitHeader_iff _ _
    [[.quoted [.plain (unit 'a') (by decide), .plain (unit ',') (by decide)],
      .text (js " ") (by decide)]]
    [.text (js " ") (by decide), .quoted [.plain (unit 'b') (by decide)]] (by decide)
    (by decide)).mpr ⟨forall_mem_singleton.mpr ⟨List.all_iff_forall_prop.mp (by decide),
      .inl (by decide)⟩, List.all_iff_forall_prop.mp (by decide), .inr rfl⟩

/-- A value that goes on after a quoted string has a code point twice. -/
theorem getDecodeSplitHeader_text_after_quoted :
    getDecodeSplitHeader [(js "X", js "\"a\"b")] (js "x") = .ok (some [js "\"a\"bb"]) :=
  getDecodeSplitHeader_eq [] [.quoted [.plain (unit 'a') (by decide)], .text (js "b") (by decide)]
    (by decide) (by decide)

end Deno.Fetch
