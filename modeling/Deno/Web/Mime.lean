import Deno.Web.Infra
import Mathlib.Data.List.Nodup

/-!
# MIME types

A MIME type is parsed from a string and written back. A value that is not a token is written as a
quoted string.
-/

namespace Deno

open Core List

def asciiLower (c : UInt16) : UInt16 := if regexMatcher asciiUpperAlpha c then c + 32 else c

/-- `String.prototype.toLowerCase`: on ASCII it is known, and no upper case letter of ASCII is a
lower case of anything. -/
structure LowerCase where
  toLowerCase : JsString → JsString
  ascii : ∀ s, (∀ c ∈ s, c < 0x80) → toLowerCase s = s.map asciiLower
  notUpper : ∀ s, ∀ c ∈ toLowerCase s, ¬regexMatcher asciiUpperAlpha c

def semicolon : UInt16 := unit ';'

def equalsSign : UInt16 := unit '='

def slash : UInt16 := unit '/'

abbrev MimeParameter := JsString × JsString

@[ext]
structure MimeType where
  type : JsString
  subtype : JsString
  parameters : List MimeParameter
  deriving DecidableEq

/-- A parameter is kept if it is valid and the first with its name. -/
def addParameter (parameters : List MimeParameter) (parameter : MimeParameter) :
    List MimeParameter :=
  if !parameter.1.isEmpty && isHttpToken parameter.1 && isHttpQuotedStringToken parameter.2 &&
      !(parameters.map Prod.fst).contains parameter.1 then parameters ++ [parameter]
  else parameters

variable {input : JsString} {position : ℕ}

section

variable (lower : LowerCase)

/-- One iteration of the loop of `parseMimeType`: the next position, unless the loop is left, and
the parameters. -/
def parameterStep (input : JsString) (position : ℕ) (parameters : List MimeParameter) :
    Except AnyError (Option ℕ × List MimeParameter) :=
  let space := collectSequenceOfCodepoints input (position + 1) (regexMatcher httpWhitespace)
  let res := collectSequenceOfCodepoints input space.2 fun c => c != semicolon && c != equalsSign
  let parameterName := lower.toLowerCase res.1
  if input[res.2]? = some semicolon then .ok (some res.2, parameters)
  else
    let position := if res.2 < input.length then res.2 + 1 else res.2
    if position ≥ input.length then .ok (none, parameters)
    else if input[position]? = some quotationMark then do
      let (parameterValue, position) ← collectHttpQuotedString input position true
      return (some (position + 1), addParameter parameters (parameterName, parameterValue))
    else
      let value := collectSequenceOfCodepoints input position fun c => c != semicolon
      let parameterValue := stripSuffix httpWhitespace value.1
      if parameterValue = [] then .ok (some value.2, parameters)
      else .ok (some value.2, addParameter parameters (parameterName, parameterValue))

variable {lower} in
/-- An iteration goes on behind its position, with at most one more parameter. -/
lemma parameterStep_cases {next : Option ℕ} {parameters parameters' : List MimeParameter}
    (h : parameterStep lower input position parameters = .ok (next, parameters')) :
    (∀ n ∈ next, position < n) ∧ (parameters' = parameters ∨
      ∃ name value, parameters' = addParameter parameters (lower.toLowerCase name, value)) := by
  have hcollect : ∀ p condition, p ≤ (collectSequenceOfCodepoints input p condition).2 :=
    fun p condition => Nat.le_add_right _ _
  have hname := Nat.lt_of_lt_of_le (Nat.lt_succ_self position)
    ((hcollect _ (regexMatcher httpWhitespace)).trans
      (hcollect _ fun c => c != semicolon && c != equalsSign))
  unfold parameterStep at h
  dsimp only at h
  generalize (collectSequenceOfCodepoints input
    (collectSequenceOfCodepoints input (position + 1) (regexMatcher httpWhitespace)).2
    fun c => c != semicolon && c != equalsSign) = res at h hname
  have hstart : res.2 ≤ if res.2 < input.length then res.2 + 1 else res.2 := by
    split_ifs <;> omega
  generalize (if res.2 < input.length then res.2 + 1 else res.2) = start at h hstart
  have hvalue := hname.trans_le (hstart.trans (hcollect start fun c => c != semicolon))
  split_ifs at h with hsemi hend hquote hempty
  · cases h
    exact ⟨by simpa using hname, .inl rfl⟩
  · cases h
    exact ⟨nofun, .inl rfl⟩
  · obtain ⟨⟨value, behind⟩, hquoted, hresult⟩ := bind_eq_ok.mp h
    have hlt := collectHttpQuotedString_lt hquoted
    cases hresult
    refine ⟨?_, .inr ⟨_, _, rfl⟩⟩
    rintro n ⟨⟩
    omega
  · cases h
    exact ⟨by simpa using hvalue, .inl rfl⟩
  · cases h
    exact ⟨by simpa using hvalue, .inr ⟨_, _, rfl⟩⟩

def parameterLoop (input : JsString) (position : ℕ) (parameters : List MimeParameter) :
    Except AnyError (List MimeParameter) :=
  if position < input.length then
    match _hstep : parameterStep lower input position parameters with
    | .error e => .error e
    | .ok (none, parameters) => .ok parameters
    | .ok (some next, parameters) => parameterLoop input next parameters
  else .ok parameters
termination_by input.length - position
decreasing_by
  have hlt := (parameterStep_cases _hstep).1 next rfl
  omega

def parseMimeType (input : JsString) : Except AnyError (Option MimeType) := do
  let input := between httpWhitespace input
  let res1 := collectSequenceOfCodepoints input 0 fun c => c != slash
  let type := res1.1
  if type.isEmpty || !isHttpToken type then return none
  if res1.2 ≥ input.length then return none
  let res2 := collectSequenceOfCodepoints input (res1.2 + 1) fun c => c != semicolon
  let subtype := stripSuffix httpWhitespace res2.1
  if subtype.isEmpty || !isHttpToken subtype then return none
  let parameters ← parameterLoop lower input res2.2 []
  return some { type := lower.toLowerCase type, subtype := lower.toLowerCase subtype, parameters }

end

variable (mimeType : MimeType)

def essence : JsString := mimeType.type ++ slash :: mimeType.subtype

def replaceUnit (c : UInt16) (replacement s : JsString) : JsString :=
  s.flatMap fun d => if d = c then replacement else [d]

/-- A value as it is written: a token as it is, and anything else as a quoted string. -/
def serializeValue (value : JsString) : JsString :=
  if isHttpToken value then value
  else
    let value := replaceUnit backslash [backslash, backslash] value
    let value := replaceUnit quotationMark [backslash, quotationMark] value
    quotationMark :: value ++ [quotationMark]

def serializeParameter (param : MimeParameter) : JsString :=
  semicolon :: param.1 ++ equalsSign :: serializeValue param.2

def serializeMimeType : JsString :=
  essence mimeType ++ mimeType.parameters.flatMap serializeParameter

/-! ### Characters of tokens -/

variable {s : JsString}

section

variable {c : UInt16}

lemma add_of_upper (h : regexMatcher asciiUpperAlpha c) :
    regexMatcher httpTokenCodePoint (c + 32) ∧ ¬regexMatcher asciiUpperAlpha (c + 32) := by
  simp only [regexMatcher_iff, asciiUpperAlpha, mem_singleton, exists_eq_left] at h
  obtain ⟨hge, hle⟩ := h
  have hge' : 65 ≤ c.toNat := hge
  have hle' : c.toNat ≤ 90 := hle
  have hadd : (c + 32).toNat = c.toNat + 32 := by
    exact Nat.mod_eq_of_lt (by simp; omega)
  constructor
  · refine regexMatcher_iff.mpr ⟨(unit 'a', unit 'z'), by decide, ?_, ?_⟩
    · rw [UInt16.le_iff_toNat_le, hadd]
      exact Nat.add_le_add_right hge' 32
    · rw [UInt16.le_iff_toNat_le, hadd]
      exact Nat.add_le_add_right hle' 32
  · simp only [regexMatcher_iff, asciiUpperAlpha, mem_singleton, exists_eq_left]
    rw [UInt16.le_iff_toNat_le, UInt16.le_iff_toNat_le]
    have hbound : (unit 'Z').toNat = 90 := rfl
    omega

lemma not_upper_asciiLower (c : UInt16) : ¬regexMatcher asciiUpperAlpha (asciiLower c) := by
  unfold asciiLower
  split_ifs with hupper
  · exact (add_of_upper hupper).2
  · exact hupper

lemma asciiLower_token (h : regexMatcher httpTokenCodePoint c) :
    regexMatcher httpTokenCodePoint (asciiLower c) := by
  unfold asciiLower
  split_ifs with hupper
  · exact (add_of_upper hupper).1
  · exact h

/-- A token in lower case: the names that a MIME type can have. -/
def IsLowerToken (s : JsString) : Prop :=
  ∀ c ∈ s, regexMatcher httpTokenCodePoint c ∧ ¬regexMatcher asciiUpperAlpha c

lemma bne_of_token {d : UInt16} (hc : regexMatcher httpTokenCodePoint c)
    (hd : ¬regexMatcher httpTokenCodePoint d) : (c != d) = true :=
  bne_iff_ne.mpr fun h => hd (h ▸ hc)

variable (lower : LowerCase)

lemma toLowerCase_eq_self (h : IsLowerToken s) : lower.toLowerCase s = s := by
  rw [lower.ascii s fun c hc => lt_of_token (h c hc).1]
  have hsame : ∀ c ∈ s, asciiLower c = id c := fun c hc => if_neg (h c hc).2
  rw [map_congr_left hsame, map_id]

lemma isLowerToken_toLowerCase (h : isHttpToken s) :
    isHttpToken (lower.toLowerCase s) ∧ IsLowerToken (lower.toLowerCase s) := by
  obtain ⟨hne, htoken⟩ := isHttpToken_iff.mp h
  have hlower : IsLowerToken (lower.toLowerCase s) := by
    rw [lower.ascii s fun c hc => lt_of_token (htoken c hc)]
    intro c hc
    obtain ⟨d, hd, rfl⟩ := List.mem_map.mp hc
    exact ⟨asciiLower_token (htoken d hd), not_upper_asciiLower d⟩
  refine ⟨isHttpToken_iff.mpr ⟨?_, fun c hc => (hlower c hc).1⟩, hlower⟩
  rw [lower.ascii s fun c hc => lt_of_token (htoken c hc)]
  simpa using hne

/-- The string ends with something that is not whitespace. -/
def EndsInText (s : JsString) : Prop := s ≠ [] ∧ s.getLast?.any (regexMatcher httpWhitespace) = false

lemma endsInText_of_token (h : isHttpToken s) : EndsInText s := by
  obtain ⟨hne, hchars⟩ := isHttpToken_iff.mp h
  refine ⟨hne, ?_⟩
  rw [getLast?_eq_some_getLast hne]
  exact not_whitespace_of_token (hchars _ (getLast_mem hne))

lemma stripSuffix_token (h : isHttpToken s) : stripSuffix httpWhitespace s = s :=
  stripSuffix_eq_self (endsInText_of_token h).2

end

/-! ### Quoted values -/

section

def pieceOf (c : UInt16) : QuotedPiece := if h : isPlain c then .plain c h else .escaped c

lemma pieceOf_value (c : UInt16) : (pieceOf c).value = c := by
  unfold pieceOf
  split_ifs <;> rfl

lemma render_pieceOf (c : UInt16) : (pieceOf c).render =
      replaceUnit quotationMark [backslash, quotationMark]
        (replaceUnit backslash [backslash, backslash] [c]) := by
  by_cases hquote : c = quotationMark
  · subst hquote
    decide
  · by_cases hbackslash : c = backslash
    · subst hbackslash
      decide
    · have hplain : isPlain c := by simp [isPlain, hquote, hbackslash]
      simp [pieceOf, hplain, QuotedPiece.render, replaceUnit, hquote, hbackslash]

lemma serializeValue_of_not_token {value : JsString} (h : ¬isHttpToken value) :
    serializeValue value = quoted (value.map pieceOf) := by
  have hrender : ∀ s : JsString, (s.map pieceOf).flatMap QuotedPiece.render =
      replaceUnit quotationMark [backslash, quotationMark]
        (replaceUnit backslash [backslash, backslash] s) := by
    intro s
    induction s with
    | nil => rfl
    | cons c s ih =>
      rw [map_cons, flatMap_cons, ih, render_pieceOf]
      simp [replaceUnit]
  rw [serializeValue, if_neg h, quoted, hrender]
  rfl

lemma map_value_pieceOf (s : JsString) : (s.map pieceOf).map QuotedPiece.value = s := by
  rw [map_map]
  exact map_id'' pieceOf_value s

end

/-! ### Reading a parameter -/

section

variable (lower : LowerCase) {input after : JsString} {position : ℕ}
  {parameters : List MimeParameter} {c : UInt16} {name value : JsString}

lemma takeWhile_name (h : IsLowerToken name) :
    (name ++ equalsSign :: after).takeWhile (fun c => c != semicolon && c != equalsSign) = name := by
  have hname : ∀ c ∈ name, (c != semicolon && c != equalsSign) = true := by
    intro c hc
    rw [bne_of_token (h c hc).1 (by decide), bne_of_token (h c hc).1 (by decide), Bool.and_self]
  rw [takeWhile_append_of_pos hname]
  simp

lemma takeWhile_space_name (h : IsLowerToken name) :
    (name ++ equalsSign :: after).takeWhile (regexMatcher httpWhitespace) = [] := by
  cases name with
  | nil => exact takeWhile_cons_of_neg (by decide)
  | cons c name =>
    refine takeWhile_cons_of_neg ?_
    rw [not_whitespace_of_token (h c mem_cons_self).1]
    exact Bool.false_ne_true

lemma parameterStep_name (h : IsLowerToken name)
    (hinput : input.drop position = c :: (name ++ equalsSign :: after)) (hafter : after ≠ []) :
    parameterStep lower input position parameters =
      let start := position + 1 + name.length + 1
      if input[start]? = some quotationMark then do
        let (parameterValue, behind) ← collectHttpQuotedString input start true
        return (some (behind + 1), addParameter parameters (name, parameterValue))
      else
        let value := collectSequenceOfCodepoints input start fun c => c != semicolon
        let parameterValue := stripSuffix httpWhitespace value.1
        if parameterValue = [] then .ok (some value.2, parameters)
        else .ok (some value.2, addParameter parameters (name, parameterValue)) := by
  have hnext := drop_succ hinput
  have hequals := drop_add_length hnext
  have hstart := drop_succ hequals
  have hspace : collectSequenceOfCodepoints input (position + 1) (regexMatcher httpWhitespace) =
      ([], position + 1) := by
    rw [collectSequenceOfCodepoints, hnext, takeWhile_space_name h]
    rfl
  have hname : collectSequenceOfCodepoints input (position + 1)
      (fun c => c != semicolon && c != equalsSign) = (name, position + 1 + name.length) := by
    rw [collectSequenceOfCodepoints, hnext, takeWhile_name h]
  have hne : some equalsSign ≠ some semicolon := by decide
  have hlt : position + 1 + name.length + 1 < input.length := by
    by_contra hge
    exact hafter (hstart ▸ drop_eq_nil_of_le (not_lt.mp hge))
  simp only [parameterStep, hspace, hname, getElem?_position hequals, if_neg hne,
    lt_length_of_drop hequals, if_true, toLowerCase_eq_self lower h, ge_iff_le, not_le.mpr hlt,
    if_false]

/-- What is behind a parameter: nothing, or another one. -/
def AtSemicolon (after : JsString) : Prop := after = [] ∨ after.head? = some semicolon

lemma takeWhile_token (htoken : isHttpToken value) (hafter : AtSemicolon after) :
    (value ++ after).takeWhile (fun c => c != semicolon) = value := by
  have hvalue : ∀ c ∈ value, (c != semicolon) = true := fun c hc =>
    bne_of_token ((isHttpToken_iff.mp htoken).2 c hc) (by decide)
  rw [takeWhile_append_of_pos hvalue]
  rcases hafter with rfl | hhead
  · simp
  · obtain ⟨rest, rfl⟩ := List.head?_eq_some_iff.mp hhead
    simp

/-- An iteration reads a parameter that was written; after a quoted string it passes over the next
code point as well. -/
lemma parameterStep_parameter (hname : IsLowerToken name) (hafter : AtSemicolon after)
    (hinput : input.drop position = c :: (name ++ equalsSign :: (serializeValue value ++ after))) :
    parameterStep lower input position parameters =
      .ok (some (position + 1 + name.length + 1 + (serializeValue value).length +
        if isHttpToken value then 0 else 1), addParameter parameters (name, value)) := by
  have hstart := drop_succ (drop_add_length (drop_succ hinput))
  by_cases htoken : isHttpToken value
  · have hvalue : serializeValue value = value := if_pos htoken
    obtain ⟨hne, hchars⟩ := isHttpToken_iff.mp htoken
    rw [parameterStep_name lower hname hinput (by simp [hvalue, hne])]
    rw [hvalue] at hstart ⊢
    have hquote : input[position + 1 + name.length + 1]? ≠ some quotationMark := by
      obtain ⟨d, rest, rfl⟩ := exists_cons_of_ne_nil hne
      rw [getElem?_position hstart]
      rintro ⟨⟩
      exact absurd (hchars _ mem_cons_self) (by decide)
    simp [hquote, collectSequenceOfCodepoints, hstart, takeWhile_token htoken hafter,
      stripSuffix_token htoken, hne, htoken]
  · rw [serializeValue_of_not_token htoken] at hinput hstart ⊢
    rw [parameterStep_name lower hname hinput (cons_ne_nil _ _)]
    simp only [getElem?_position hstart, if_true, collectHttpQuotedString_value _ hstart,
      map_value_pieceOf, htoken]
    rfl

lemma parameterLoop_of_step {next : ℕ} {parameters' : List MimeParameter}
    (hpos : position < input.length)
    (hstep : parameterStep lower input position parameters = .ok (some next, parameters')) :
    parameterLoop lower input position parameters = parameterLoop lower input next parameters' := by
  rw [parameterLoop, if_pos hpos]
  split <;> rename_i heq <;> rw [hstep] at heq <;> cases heq
  rfl

lemma parameterLoop_end (hpos : input.length ≤ position) :
    parameterLoop lower input position parameters = .ok parameters := by
  rw [parameterLoop, if_neg (not_lt.mpr hpos)]

end

/-! ### Reading all parameters -/

/-- The parameters as they are read back: a name loses its first code point after a value that is
not a token. -/
def misread : Bool → List MimeParameter → List MimeParameter
  | _, [] => []
  | shifted, (name, value) :: rest =>
    (if shifted then name.tail else name, value) :: misread (!isHttpToken value) rest

lemma length_misread (shifted : Bool) (parameters : List MimeParameter) :
    (misread shifted parameters).length = parameters.length := by
  induction parameters generalizing shifted with
  | nil => rfl
  | cons parameter rest ih => simp [misread, ih]

structure IsParameter (parameter : MimeParameter) : Prop where
  token : isHttpToken parameter.1
  lower : IsLowerToken parameter.1
  value : isHttpQuotedStringToken parameter.2

section

variable (lower : LowerCase) {input : JsString} (written : List MimeParameter)

lemma atSemicolon_flatMap : AtSemicolon (written.flatMap serializeParameter) := by
  cases written with
  | nil => exact .inl rfl
  | cons parameter written => exact .inr rfl

lemma parameterLoop_eq (h : ∀ p ∈ written, IsParameter p)
    (shifted : Bool) (position : ℕ) (parameters : List MimeParameter)
    (hinput : input.drop position =
      (written.flatMap serializeParameter).drop (if shifted then 1 else 0)) :
    parameterLoop lower input position parameters =
      .ok ((misread shifted written).foldl addParameter parameters) := by
  induction written generalizing shifted position parameters with
  | nil =>
    have hnil : input.drop position = [] := by rw [hinput]; simp
    exact parameterLoop_end lower (List.drop_eq_nil_iff.mp hnil)
  | cons parameter written ih =>
    obtain ⟨name, value⟩ := parameter
    rw [forall_mem_cons] at h
    obtain ⟨⟨htoken, hlower, -⟩, hrest⟩ := h
    have hafter := atSemicolon_flatMap written
    obtain ⟨c, hread⟩ : ∃ c, input.drop position =
        c :: ((if shifted then name.tail else name) ++ equalsSign ::
          (serializeValue value ++ written.flatMap serializeParameter)) := by
      obtain ⟨d, tail, rfl⟩ := exists_cons_of_ne_nil (isHttpToken_iff.mp htoken).1
      cases shifted with
      | false => exact ⟨semicolon, by simp [hinput, serializeParameter]⟩
      | true => exact ⟨d, by simp [hinput, serializeParameter]⟩
    have hname : IsLowerToken (if shifted then name.tail else name) := by
      split_ifs
      · exact fun c hc => hlower c (mem_of_mem_tail hc)
      · exact hlower
    rw [parameterLoop_of_step lower (lt_length_of_drop hread)
      (parameterStep_parameter lower hname hafter hread)]
    refine ih hrest (!isHttpToken value) _ _ ?_
    rw [← drop_drop, drop_add_length (drop_succ (drop_add_length (drop_succ hread)))]
    cases isHttpToken value <;> rfl

end

section

variable {parameters read : List MimeParameter} {parameter : MimeParameter}

lemma foldl_addParameter_sublist (read parameters : List MimeParameter) :
    ∃ kept, kept.Sublist read ∧ read.foldl addParameter parameters = parameters ++ kept := by
  induction read generalizing parameters with
  | nil => exact ⟨[], .refl _, by simp⟩
  | cons parameter read ih =>
    rw [foldl_cons, addParameter]
    split_ifs
    · obtain ⟨kept, hsub, heq⟩ := ih (parameters ++ [parameter])
      exact ⟨parameter :: kept, hsub.cons_cons _, by simp [heq]⟩
    · obtain ⟨kept, hsub, heq⟩ := ih parameters
      exact ⟨kept, hsub.cons _, heq⟩

/-- Nothing is lost of valid parameters with different names. -/
lemma foldl_addParameter_eq (h : ∀ p ∈ read, IsParameter p)
    (hnodup : ((parameters ++ read).map Prod.fst).Nodup) :
    read.foldl addParameter parameters = parameters ++ read := by
  induction read generalizing parameters with
  | nil => simp
  | cons parameter read ih =>
    rw [forall_mem_cons] at h
    have hnot : parameter.1 ∉ parameters.map Prod.fst := by
      intro hmem
      simp only [map_append, map_cons, nodup_append] at hnodup
      exact hnodup.2.2 _ hmem _ mem_cons_self rfl
    have hadd : addParameter parameters parameter = parameters ++ [parameter] := by
      have hne := (isHttpToken_iff.mp h.1.token).1
      simp [addParameter, h.1.token, h.1.value, hnot, hne]
    rw [foldl_cons, hadd, ih h.2 (by simpa using hnodup)]
    simp

structure AreParameters (parameters : List MimeParameter) : Prop where
  each : ∀ p ∈ parameters, IsParameter p
  nodup : (parameters.map Prod.fst).Nodup

lemma AreParameters.add (h : AreParameters parameters) (lower : LowerCase) (name value : JsString) :
    AreParameters (addParameter parameters (lower.toLowerCase name, value)) := by
  unfold addParameter
  split_ifs with hadd
  · simp only [Bool.and_eq_true, Bool.not_eq_true', contains_eq_mem,
      decide_eq_false_iff_not] at hadd
    obtain ⟨⟨⟨-, htoken⟩, hvalue⟩, hnew⟩ := hadd
    have hlower : IsLowerToken (lower.toLowerCase name) := fun c hc =>
      ⟨(isHttpToken_iff.mp htoken).2 c hc, lower.notUpper name c hc⟩
    constructor
    · rw [forall_mem_append, forall_mem_singleton]
      exact ⟨h.each, htoken, hlower, hvalue⟩
    · rw [map_append, map_singleton, ← concat_eq_append, nodup_concat]
      exact ⟨hnew, h.nodup⟩
  · exact h

lemma AreParameters.step (h : AreParameters parameters) (lower : LowerCase)
    {next : Option ℕ} {parameters' : List MimeParameter}
    (hstep : parameterStep lower input position parameters = .ok (next, parameters')) :
    AreParameters parameters' := by
  rcases (parameterStep_cases hstep).2 with rfl | ⟨name, value, rfl⟩
  · exact h
  · exact h.add lower name value

lemma AreParameters.loop (lower : LowerCase) (h : AreParameters parameters)
    (hloop : parameterLoop lower input position parameters = .ok read) : AreParameters read := by
  fun_induction parameterLoop lower input position parameters with
  | case1 => cases hloop
  | case2 position parameters hpos parameters' hstep =>
    cases hloop
    exact h.step lower hstep
  | case3 position parameters hpos next parameters' hstep ih => exact ih (h.step lower hstep) hloop
  | case4 =>
    cases hloop
    exact h

end

/-! ### Round trips -/

/-- What a MIME type that was parsed is made of. -/
structure MimeType.WellFormed (mimeType : MimeType) : Prop where
  type : isHttpToken mimeType.type ∧ IsLowerToken mimeType.type
  subtype : isHttpToken mimeType.subtype ∧ IsLowerToken mimeType.subtype
  parameters : AreParameters mimeType.parameters

variable {m : MimeType}

lemma wellFormed_of_parse {lower : LowerCase}
    (h : parseMimeType lower s = .ok (some m)) : m.WellFormed := by
  unfold parseMimeType at h
  dsimp only at h
  split at h
  · cases h
  rename_i htype
  split at h
  · cases h
  split at h
  · cases h
  rename_i hsubtype
  obtain ⟨parameters, hloop, hresult⟩ := bind_eq_ok.mp h
  cases hresult
  simp only [Bool.or_eq_true, Bool.not_eq_true', not_or, Bool.not_eq_false] at htype hsubtype
  refine ⟨isLowerToken_toLowerCase lower htype.2, isLowerToken_toLowerCase lower hsubtype.2, ?_⟩
  exact AreParameters.loop lower ⟨by simp, by simp⟩ hloop

section

variable {s t : JsString}

lemma EndsInText.append (h : EndsInText t) (s : JsString) : EndsInText (s ++ t) := by
  refine ⟨by simp [h.1], ?_⟩
  rw [getLast?_append_of_ne_nil _ h.1]
  exact h.2

lemma endsInText_serializeValue : EndsInText (serializeValue s) := by
  by_cases htoken : isHttpToken s
  · rw [serializeValue, if_pos htoken]
    exact endsInText_of_token htoken
  · rw [serializeValue, if_neg htoken]
    exact EndsInText.append ⟨by simp, by decide⟩ _

lemma endsInText_serializeMimeType (h : m.WellFormed) : EndsInText (serializeMimeType m) := by
  unfold serializeMimeType
  rcases eq_nil_or_concat m.parameters with hnil | ⟨params, last, hlast⟩
  · rw [hnil]
    simpa [essence] using (endsInText_of_token h.subtype.1).append (m.type ++ [slash])
  · rw [hlast, concat_eq_append, flatMap_append]
    refine EndsInText.append (EndsInText.append ?_ _) _
    simpa [serializeParameter] using
      endsInText_serializeValue.append (semicolon :: last.1 ++ [equalsSign])

lemma between_serializeMimeType (h : m.WellFormed) :
    between httpWhitespace (serializeMimeType m) = serializeMimeType m := by
  have hhead : (serializeMimeType m).head?.any (regexMatcher httpWhitespace) = false := by
    obtain ⟨hne, hchars⟩ := isHttpToken_iff.mp h.type.1
    obtain ⟨c, rest, hc⟩ := exists_cons_of_ne_nil hne
    rw [hc] at hchars
    rw [serializeMimeType, essence, hc]
    exact not_whitespace_of_token (hchars c mem_cons_self)
  rw [between, stripPrefix_eq_self hhead, stripSuffix_eq_self (endsInText_serializeMimeType h).2]

end

variable {parameters : List MimeParameter}

lemma parseMimeType_eq (lower : LowerCase) {s type subtype raw : JsString} {p q : ℕ}
    (htype : collectSequenceOfCodepoints (between httpWhitespace s) 0 (fun c => c != slash) =
      (type, p))
    (htoken : isHttpToken type) (hlt : p < (between httpWhitespace s).length)
    (hraw : collectSequenceOfCodepoints (between httpWhitespace s) (p + 1)
      (fun c => c != semicolon) = (raw, q))
    (hsubtype : stripSuffix httpWhitespace raw = subtype) (hsubtoken : isHttpToken subtype)
    (hloop : parameterLoop lower (between httpWhitespace s) q [] = .ok parameters) :
    parseMimeType lower s = .ok (some {
      type := lower.toLowerCase type
      subtype := lower.toLowerCase subtype
      parameters }) := by
  have hvalid : ∀ s, isHttpToken s → (s.isEmpty || !isHttpToken s) = false := by
    intro s hs
    have hne := (isHttpToken_iff.mp hs).1
    simp [hs, hne]
  unfold parseMimeType
  simp only [htype, hraw, hsubtype, hvalid _ htoken, hvalid _ hsubtoken, if_neg (not_le.mpr hlt),
    hloop, Bool.false_eq_true, if_false]
  rfl

/-- A MIME type that was written is read with its parameters as they are read back. -/
lemma parseMimeType_serialize (lower : LowerCase) (h : m.WellFormed) :
    parseMimeType lower (serializeMimeType m) = .ok (some { m with
      parameters := (misread false m.parameters).foldl addParameter [] }) := by
  have htype : collectSequenceOfCodepoints (serializeMimeType m) 0 (fun c => c != slash) =
      (m.type, m.type.length) := by
    have hslash : ∀ c ∈ m.type, (c != slash) = true := fun c hc =>
      bne_of_token (h.type.2 c hc).1 (by decide)
    have htake : (serializeMimeType m).takeWhile (fun c => c != slash) = m.type := by
      rw [serializeMimeType, essence, append_assoc, takeWhile_append_of_pos hslash]
      simp
    rw [collectSequenceOfCodepoints, drop_zero, htake, Nat.zero_add]
  have hdrop : (serializeMimeType m).drop (m.type.length + 1) =
      m.subtype ++ m.parameters.flatMap serializeParameter := by
    simp [serializeMimeType, essence]
  have hsubtype : collectSequenceOfCodepoints (serializeMimeType m) (m.type.length + 1)
      (fun c => c != semicolon) = (m.subtype, m.type.length + 1 + m.subtype.length) := by
    rw [collectSequenceOfCodepoints, hdrop,
      takeWhile_token h.subtype.1 (atSemicolon_flatMap m.parameters)]
  have hlt : m.type.length < (serializeMimeType m).length := by
    simp [serializeMimeType, essence]
  have hloop := parameterLoop_eq lower m.parameters h.parameters.each false _ []
    (drop_add_length hdrop)
  rw [← between_serializeMimeType h] at htype hlt hsubtype hloop
  rw [parseMimeType_eq lower htype h.type.1 hlt hsubtype (stripSuffix_token h.subtype.1)
    h.subtype.1 hloop, toLowerCase_eq_self lower h.type.2, toLowerCase_eq_self lower h.subtype.2]

/-- The parameters are read back as they are if all values but the last are tokens. -/
lemma misread_eq_self_iff (h : ∀ p ∈ parameters, IsParameter p) :
    misread false parameters = parameters ↔ ∀ p ∈ parameters.dropLast, isHttpToken p.2 := by
  induction parameters with
  | nil => simp [misread]
  | cons parameter rest ih =>
    obtain ⟨name, value⟩ := parameter
    rw [forall_mem_cons] at h
    cases rest with
    | nil => simp [misread]
    | cons next rest =>
      rw [dropLast_cons_of_ne_nil (cons_ne_nil _ _), forall_mem_cons, ← ih h.2, misread]
      by_cases htoken : isHttpToken value
      · simp [htoken]
      · have hne : next.1 ≠ [] := (isHttpToken_iff.mp (h.2 next mem_cons_self).token).1
        have htail : next.1.tail ≠ next.1 := by
          obtain ⟨c, tail, hc⟩ := exists_cons_of_ne_nil hne
          simp [hc]
        simp [htoken, misread, Prod.ext_iff, htail]

/-- A MIME type that was parsed is written such that it is parsed again, if all values of its
parameters but the last are tokens. -/
theorem parseMimeType_serialize_iff (lower : LowerCase) (s : JsString) (m : MimeType)
    (h : parseMimeType lower s = .ok (some m)) :
    parseMimeType lower (serializeMimeType m) = .ok (some m) ↔
      ∀ p ∈ m.parameters.dropLast, isHttpToken p.2 := by
  have hm := wellFormed_of_parse h
  have hparams : (misread false m.parameters).foldl addParameter [] = m.parameters ↔
      misread false m.parameters = m.parameters := by
    constructor
    · intro heq
      obtain ⟨kept, hsub, hkept⟩ := foldl_addParameter_sublist (misread false m.parameters) []
      rw [heq, nil_append] at hkept
      rw [← hkept] at hsub
      exact (hsub.eq_of_length (length_misread false m.parameters).symm).symm
    · intro heq
      rw [heq]
      exact foldl_addParameter_eq hm.parameters.each hm.parameters.nodup
  rw [parseMimeType_serialize lower hm, Except.ok.injEq, Option.some.injEq, MimeType.ext_iff,
    ← misread_eq_self_iff hm.parameters.each, ← hparams]
  simp

def asciiLowerCase : LowerCase where
  toLowerCase := List.map asciiLower
  ascii := fun _ _ => rfl
  notUpper := by
    intro s c hc
    obtain ⟨d, -, rfl⟩ := List.mem_map.mp hc
    exact not_upper_asciiLower d

lemma parameterLoop_two {s : JsString} {i : ℕ} (j k : ℕ) (p q : MimeParameter)
    (hi : i < s.length) (hp : parameterStep asciiLowerCase s i [] = .ok (some j, [p]))
    (hj : j < s.length ∧ parameterStep asciiLowerCase s j [p] = .ok (some k, [p, q]))
    (hk : s.length ≤ k) : parameterLoop asciiLowerCase s i [] = .ok [p, q] := by
  rw [parameterLoop_of_step asciiLowerCase hi hp, parameterLoop_of_step asciiLowerCase hj.1 hj.2,
    parameterLoop_end asciiLowerCase hk]

/-- A MIME type with two parameters. -/
theorem parseMimeType_serialize_html : parseMimeType asciiLowerCase (serializeMimeType
      ⟨js "text", js "html", [(js "charset", js "utf-8"), (js "x", js "1 2")]⟩) =
      .ok (some ⟨js "text", js "html", [(js "charset", js "utf-8"), (js "x", js "1 2")]⟩) := by
  let s := js "Text/HTML;charset=utf-8;x=1 2"
  have htype : collectSequenceOfCodepoints (between httpWhitespace s) 0 (fun c => c != slash) =
      (js "Text", 4) := by decide
  have hraw : collectSequenceOfCodepoints (between httpWhitespace s) 5 (fun c => c != semicolon) =
      (js "HTML", 9) := by decide
  have hparse := parseMimeType_eq asciiLowerCase htype (by decide) (by decide) hraw rfl (by decide)
    (parameterLoop_two 23 29 (js "charset", js "utf-8") (js "x", js "1 2") (by decide) (by decide)
      (by decide) (by decide))
  exact (parseMimeType_serialize_iff asciiLowerCase s _ hparse).mpr (by decide)

/-- A parameter is lost behind a value that is not a token. -/
theorem parseMimeType_serialize_space : parseMimeType asciiLowerCase (js "a/b;x=1 2;y=3") =
        .ok (some ⟨js "a", js "b", [(js "x", js "1 2"), (js "y", js "3")]⟩) ∧
      parseMimeType asciiLowerCase (serializeMimeType
          ⟨js "a", js "b", [(js "x", js "1 2"), (js "y", js "3")]⟩) =
        .ok (some ⟨js "a", js "b", [(js "x", js "1 2")]⟩) := by
  let s := js "a/b;x=1 2;y=3"
  have htype : collectSequenceOfCodepoints (between httpWhitespace s) 0 (fun c => c != slash) =
      (js "a", 1) := by decide
  have hraw : collectSequenceOfCodepoints (between httpWhitespace s) 2 (fun c => c != semicolon) =
      (js "b", 3) := by decide
  have hfirst : parameterStep asciiLowerCase (between httpWhitespace s) 3 [] =
      .ok (some 9, [(js "x", js "1 2")]) := by decide
  have hsecond : parameterStep asciiLowerCase (between httpWhitespace s) 9 [(js "x", js "1 2")] =
      .ok (some 13, [(js "x", js "1 2"), (js "y", js "3")]) := by decide
  have hloop : parameterLoop asciiLowerCase (between httpWhitespace s) 3 [] =
      .ok [(js "x", js "1 2"), (js "y", js "3")] := by
    rw [parameterLoop_of_step asciiLowerCase (by decide) hfirst,
      parameterLoop_of_step asciiLowerCase (by decide) hsecond,
      parameterLoop_end asciiLowerCase (by decide)]
  have hparse := parseMimeType_eq asciiLowerCase htype (by decide) (by decide) hraw rfl (by decide)
    hloop
  exact ⟨hparse, parseMimeType_serialize asciiLowerCase (wellFormed_of_parse hparse)⟩

lemma map_snd_misread (shifted : Bool) (parameters : List MimeParameter) :
    (misread shifted parameters).map Prod.snd = parameters.map Prod.snd := by
  induction parameters generalizing shifted with
  | nil => rfl
  | cons parameter rest ih => simp [misread, ih]

/-- What is written for a MIME type that was parsed is parsed again: the essence is the same, and
the values of the parameters are among those that there were, in their order. -/
theorem parseMimeType_serialize_essence (lower : LowerCase)
    (h : parseMimeType lower s = .ok (some m)) : ∃ again,
    parseMimeType lower (serializeMimeType m) = .ok (some again) ∧ essence again = essence m ∧
      (again.parameters.map Prod.snd).Sublist (m.parameters.map Prod.snd) := by
  obtain ⟨kept, hsub, hkept⟩ := foldl_addParameter_sublist (misread false m.parameters) []
  refine ⟨_, parseMimeType_serialize lower (wellFormed_of_parse h), rfl, ?_⟩
  rw [hkept, nil_append, ← map_snd_misread false m.parameters]
  exact hsub.map Prod.snd

theorem parseMimeType_serialize_essence_lower : ∃ again,
    parseMimeType asciiLowerCase (serializeMimeType
        ⟨js "a", js "b", [(js "x", js "1 2"), (js "y", js "3")]⟩) = .ok (some again) ∧
      essence again = js "a/b" ∧ (again.parameters.map Prod.snd).Sublist [js "1 2", js "3"] := by
  let s := js "A/b;x=1 2;y=3"
  have htype : collectSequenceOfCodepoints (between httpWhitespace s) 0 (fun c => c != slash) =
      (js "A", 1) := by decide
  have hraw : collectSequenceOfCodepoints (between httpWhitespace s) 2 (fun c => c != semicolon) =
      (js "b", 3) := by decide
  exact parseMimeType_serialize_essence asciiLowerCase (parseMimeType_eq asciiLowerCase htype
    (by decide) (by decide) hraw rfl (by decide)
    (parameterLoop_two 9 13 (js "x", js "1 2") (js "y", js "3") (by decide) (by decide) (by decide)
      (by decide)))

end Deno
