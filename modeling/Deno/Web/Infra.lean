import Deno.Core.JsString
import Deno.Error
import Mathlib.Data.List.DropRight

/-!
# Scanning strings

Positions in a string, the code points up to one of some kind, and quoted strings.
-/

namespace Deno

open Core

/-! ### Classes of code points -/

/-- A list of code points, in ranges. -/
abbrev CodePoints := List (UInt16 × UInt16)

def codePoint (c : Char) : UInt16 × UInt16 := (unit c, unit c)

/-- The class a regular expression has for the code points. -/
def regexMatcher (chars : CodePoints) (c : UInt16) : Bool :=
  chars.any fun range => range.1 ≤ c && c ≤ range.2

def asciiDigit : CodePoints := [(unit '0', unit '9')]

def asciiUpperAlpha : CodePoints := [(unit 'A', unit 'Z')]

def asciiLowerAlpha : CodePoints := [(unit 'a', unit 'z')]

def asciiAlpha : CodePoints := asciiUpperAlpha ++ asciiLowerAlpha

def asciiAlphanumeric : CodePoints := asciiDigit ++ asciiAlpha

def httpTabOrSpace : CodePoints := [codePoint '\t', codePoint ' ']

def httpWhitespace : CodePoints := [codePoint '\n', codePoint '\r'] ++ httpTabOrSpace

def httpTokenCodePoint : CodePoints :=
  ['!', '#', '$', '%', '&', '\'', '*', '+', '-', '.', '^', '_', '`', '|', '~'].map codePoint ++
    asciiAlphanumeric

def httpQuotedStringTokenPoint : CodePoints :=
  [codePoint '\t', (unit ' ', unit '~'), (0x80, 0xFF)]

/-- `HTTP_TOKEN_CODE_POINT_RE` matches. -/
def isHttpToken (s : JsString) : Bool := !s.isEmpty && s.all (regexMatcher httpTokenCodePoint)

/-- `HTTP_QUOTED_STRING_TOKEN_POINT_RE` matches. -/
def isHttpQuotedStringToken (s : JsString) : Bool :=
  !s.isEmpty && s.all (regexMatcher httpQuotedStringTokenPoint)

variable {chars : CodePoints}

section

variable {c : UInt16} {s : JsString}

lemma regexMatcher_iff : regexMatcher chars c ↔ ∃ range ∈ chars, range.1 ≤ c ∧ c ≤ range.2 := by
  simp [regexMatcher]

lemma isHttpToken_iff : isHttpToken s ↔ s ≠ [] ∧ ∀ c ∈ s, regexMatcher httpTokenCodePoint c := by
  simp [isHttpToken]

lemma lt_of_token (h : regexMatcher httpTokenCodePoint c) : c < 0x80 := by
  obtain ⟨range, hrange, -, hle⟩ := regexMatcher_iff.mp h
  have hbound : ∀ range ∈ httpTokenCodePoint, range.2 < 0x80 :=
    List.all_iff_forall_prop.mp (by decide)
  exact UInt16.lt_of_le_of_lt hle (hbound range hrange)

lemma not_whitespace_of_token (h : regexMatcher httpTokenCodePoint c) :
    regexMatcher httpWhitespace c = false := by
  rw [← Bool.not_eq_true]
  intro hspace
  obtain ⟨range, hrange, hge, hle⟩ := regexMatcher_iff.mp hspace
  have hsingle : ∀ range ∈ httpWhitespace,
      range.1 = range.2 ∧ ¬regexMatcher httpTokenCodePoint range.1 :=
    List.all_iff_forall_prop.mp (by decide)
  obtain ⟨heq, hnot⟩ := hsingle range hrange
  have hc : c = range.1 := UInt16.le_antisymm (heq ▸ hle) hge
  exact hnot (hc ▸ h)

end

section

variable (chars : CodePoints)

/-- The string without the code points of a class at its start. -/
def stripPrefix (s : JsString) : JsString := s.dropWhile (regexMatcher chars)

/-- The string without the code points of a class at its end. -/
def stripSuffix (s : JsString) : JsString := s.rdropWhile (regexMatcher chars)

/-- A code point that does not end a line. -/
def isDot (c : UInt16) : Bool :=
  c != unit '\n' && c != unit '\r' && c != 0x2028 && c != 0x2029

def isHttpWhitespace (c : Option UInt16) : Bool := c.any (regexMatcher httpWhitespace)

def between (s : JsString) : JsString := stripSuffix chars (stripPrefix chars s)

end

/-- The group of `HTTP_BETWEEN_WHITESPACE` is within one line, and the expression does not match
otherwise. -/
def httpTrim (s : JsString) : JsString :=
  if !isHttpWhitespace s.head? && !isHttpWhitespace s.getLast? then s
  else if (between httpWhitespace s).all isDot then between httpWhitespace s
  else []

variable {s : JsString}

lemma between_part : between chars s <:+: s :=
  (List.rdropWhile_prefix _ _).isInfix.trans (List.dropWhile_suffix _).isInfix

lemma stripPrefix_eq_self
    (h : s.head?.any (regexMatcher chars) = false) : stripPrefix chars s = s := by
  cases s with
  | nil => rfl
  | cons c s => exact List.dropWhile_cons_of_neg (by simpa using h)

lemma stripSuffix_eq_self
    (h : s.getLast?.any (regexMatcher chars) = false) : stripSuffix chars s = s := by
  apply List.rdropWhile_eq_self_iff.mpr
  intro hs
  rw [List.getLast?_eq_getLast_of_ne_nil hs] at h
  simpa using h

lemma httpTrim_eq (h : (between httpWhitespace s).all isDot) :
    httpTrim s = between httpWhitespace s := by
  rw [httpTrim]
  split_ifs with hends
  · obtain ⟨hhead, hlast⟩ := (Bool.and_eq_true _ _).mp hends
    rw [Bool.not_eq_true'] at hhead hlast
    rw [between, stripPrefix_eq_self hhead, stripSuffix_eq_self hlast]
  · rfl

def lowerUnit (c : UInt16) : UInt16 :=
  if regexMatcher asciiUpperAlpha c || regexMatcher [(0xC0, 0xD6), (0xD8, 0xDE)] c then c + 32
  else c

def byteLowerCase (s : JsString) : JsString := s.map lowerUnit

/-! ### Collecting code points -/

/-- The code points from a position on that meet a condition, and the position behind them. -/
def collectSequenceOfCodepoints (input : JsString) (position : ℕ) (condition : UInt16 → Bool) :
    JsString × ℕ :=
  let result := (input.drop position).takeWhile condition
  (result, position + result.length)

def quotationMark : UInt16 := unit '"'

def backslash : UInt16 := unit '\\'

/-- Neither the end of a quoted string nor the start of an escape. -/
def isPlain (c : UInt16) : Bool := c != quotationMark && c != backslash

/-- The loop of `collectHttpQuotedString`: the value and the position at its end. -/
def collectQuotedLoop (input : JsString) (position : ℕ) (value : JsString) :
    Except AnyError (JsString × ℕ) :=
  let res := collectSequenceOfCodepoints input position isPlain
  let value := value ++ res.1
  if h : res.2 < input.length then
    let quoteOrBackslash := input[res.2]
    if quoteOrBackslash = backslash then
      if h' : res.2 + 1 < input.length then
        collectQuotedLoop input (res.2 + 2) (value ++ [input[res.2 + 1]])
      else .ok (value ++ [backslash], res.2 + 1)
    else if quoteOrBackslash ≠ quotationMark then .error (typeError "must be \"")
    else .ok (value, res.2 + 1)
  else .ok (value, res.2)
termination_by input.length - position
decreasing_by
  have hle : position ≤ res.2 := Nat.le_add_right _ _
  change input.length - (res.2 + 2) < _
  omega

def collectHttpQuotedString (input : JsString) (position : ℕ) (extractValue : Bool) :
    Except AnyError (JsString × ℕ) :=
  let positionStart := position
  if input[position]? ≠ some quotationMark then .error (typeError "must be \"")
  else do
    let (value, position) ← collectQuotedLoop input (position + 1) []
    let text := (input.drop positionStart).take (position + 1 - positionStart)
    return (if extractValue then value else text, position)

variable {position position' : ℕ}

lemma collectQuotedLoop_le {input value result : JsString}
    (h : collectQuotedLoop input position value = .ok (result, position')) :
    position ≤ position' := by
  have hle : position ≤ (collectSequenceOfCodepoints input position isPlain).2 :=
    Nat.le_add_right _ _
  fun_induction collectQuotedLoop input position value with
  | case1 position value res value' hlt q hq hlt' ih =>
    exact hle.trans ((Nat.le_add_right _ 2).trans (ih h (Nat.le_add_right _ _)))
  | case3 => cases h
  | case2 | case4 =>
    obtain ⟨-, rfl⟩ := Prod.mk.inj (Except.ok.inj h)
    exact Nat.le_succ_of_le hle
  | case5 position value res value' hend =>
    obtain ⟨-, rfl⟩ := Prod.mk.inj (Except.ok.inj h)
    exact hle

lemma collectHttpQuotedString_lt {input result : JsString} {extractValue : Bool}
    (h : collectHttpQuotedString input position extractValue = .ok (result, position')) :
    position < position' := by
  unfold collectHttpQuotedString at h
  by_cases hquote : input[position]? = some quotationMark
  · rw [if_neg (not_not.mpr hquote)] at h
    obtain ⟨⟨value, read⟩, hloop, hresult⟩ := bind_eq_ok.mp h
    cases hresult
    exact collectQuotedLoop_le hloop
  · rw [if_pos hquote] at h
    cases h

/-! ### Well-formed quoted strings -/

/-- A code point of a quoted string as it is written: itself, or behind a backslash. -/
inductive QuotedPiece where
  | plain (c : UInt16) (h : isPlain c)
  | escaped (c : UInt16)

namespace QuotedPiece

def value : QuotedPiece → UInt16
  | plain c _ => c
  | escaped c => c

def render : QuotedPiece → JsString
  | plain c _ => [c]
  | escaped c => [backslash, c]

end QuotedPiece

def quoted (body : List QuotedPiece) : JsString :=
  quotationMark :: (body.flatMap QuotedPiece.render ++ [quotationMark])

lemma quoted_length (body : List QuotedPiece) :
    (quoted body).length = (body.flatMap QuotedPiece.render).length + 2 := by
  simp [quoted]

section

variable {input after value : JsString} {position : ℕ} {c : UInt16} {condition : UInt16 → Bool}

section

variable (hinput : input.drop position = c :: after)

include hinput

lemma collectSequenceOfCodepoints_cons (hc : condition c) :
    collectSequenceOfCodepoints input position condition =
      (c :: (collectSequenceOfCodepoints input (position + 1) condition).1,
        (collectSequenceOfCodepoints input (position + 1) condition).2) := by
  simp [collectSequenceOfCodepoints, drop_succ hinput, hinput, hc, Nat.add_comm, Nat.add_left_comm]

lemma collectSequenceOfCodepoints_stop (hc : condition c = false) :
    collectSequenceOfCodepoints input position condition = ([], position) := by
  simp [collectSequenceOfCodepoints, hinput, hc]

lemma collectQuotedLoop_plain (hc : isPlain c) : collectQuotedLoop input position value =
      collectQuotedLoop input (position + 1) (value ++ [c]) := by
  rw [collectQuotedLoop, collectQuotedLoop, collectSequenceOfCodepoints_cons hinput hc]
  simp

end

lemma collectQuotedLoop_escaped (hinput : input.drop position = backslash :: c :: after) :
    collectQuotedLoop input position value =
      collectQuotedLoop input (position + 2) (value ++ [c]) := by
  have hnext := drop_succ hinput
  rw [collectQuotedLoop, collectSequenceOfCodepoints_stop hinput rfl]
  simp [lt_length_of_drop hinput, getElem_position hinput, lt_length_of_drop hnext,
    getElem_position hnext]

lemma collectQuotedLoop_end (hinput : input.drop position = quotationMark :: after) :
    collectQuotedLoop input position value = .ok (value, position + 1) := by
  rw [collectQuotedLoop, collectSequenceOfCodepoints_stop hinput rfl]
  simp [lt_length_of_drop hinput, getElem_position hinput, show quotationMark ≠ backslash by decide]

variable (body : List QuotedPiece)

include body

lemma collectQuotedLoop_body (value : JsString)
    (hinput : input.drop position = body.flatMap QuotedPiece.render ++ quotationMark :: after) :
    collectQuotedLoop input position value = .ok (value ++ body.map QuotedPiece.value,
        position + (body.flatMap QuotedPiece.render).length + 1) := by
  induction body generalizing position value with
  | nil => simpa using collectQuotedLoop_end hinput
  | cons piece body ih =>
    cases piece with
    | plain c h =>
      rw [collectQuotedLoop_plain hinput h, ih _ (drop_succ hinput)]
      simp [QuotedPiece.value, Nat.add_assoc, Nat.add_comm 1, show
        (QuotedPiece.plain c h).render.length = 1 from rfl]
    | escaped c =>
      rw [collectQuotedLoop_escaped hinput, ih _ (drop_succ (drop_succ hinput))]
      simp [QuotedPiece.value, Nat.add_assoc, Nat.add_comm 2, show
        (QuotedPiece.escaped c).render.length = 2 from rfl]

variable (hinput : input.drop position = quoted body ++ after)

include hinput

lemma collectQuotedLoop_quoted : collectQuotedLoop input (position + 1) [] =
      .ok (body.map QuotedPiece.value, position + (quoted body).length) := by
  have hnext : input.drop (position + 1) =
      body.flatMap QuotedPiece.render ++ quotationMark :: after := by
    simpa [quoted] using drop_succ hinput
  rw [collectQuotedLoop_body body [] hnext, quoted_length, List.nil_append]
  simp only [Nat.add_comm, Nat.add_left_comm]

/-- The value of a quoted string, and the position behind it. -/
lemma collectHttpQuotedString_value : collectHttpQuotedString input position true =
      .ok (body.map QuotedPiece.value, position + (quoted body).length) := by
  simp [collectHttpQuotedString, getElem?_position hinput, collectQuotedLoop_quoted body hinput]

/-- The text of a quoted string is returned with what is behind its last mark. -/
lemma collectHttpQuotedString_text : collectHttpQuotedString input position false =
      .ok (quoted body ++ after.take 1, position + (quoted body).length) := by
  have htake : position + (quoted body).length + 1 - position = (quoted body).length + 1 := by
    omega
  simp [collectHttpQuotedString, getElem?_position hinput, collectQuotedLoop_quoted body hinput,
    hinput, htake, List.take_append, List.take_of_length_le]

end

end Deno
