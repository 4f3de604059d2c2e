import Deno.Core.ExceptLoop
import Deno.Core.RestartSearch
import Deno.Fetch.FormData

/-!
# The parts of a multipart body

A part ends where the search for the delimiter ends: this search starts over at a mismatch, and it
does not look at where a line starts.
-/

namespace Deno.Fetch

open Core List
open Web (normalizeType)

namespace MultipartParser

variable {decoder : TextDecoder} {parser : MultipartParser} {s : ParserState} {i n : ℕ}
  {bytes rest : Bytes}

/-! ### The phases of the loop -/

lemma loop_cons (b : UInt8) : parser.loop decoder i (b :: rest) s =
    (do let s ← parser.step decoder i b s; parser.loop decoder (i + 1) rest s) := rfl

lemma step_content (hs : s.state = .content) (b : UInt8) : parser.step decoder i b s =
      if advance parser.boundaryChars s.boundaryIndex b ≥ parser.boundary.length then
        parser.finishPart decoder i
          { s with boundaryIndex := advance parser.boundaryChars s.boundaryIndex b }
      else .ok { s with boundaryIndex := advance parser.boundaryChars s.boundaryIndex b } := by
  have hadvance : (if parser.boundaryChars[s.boundaryIndex]? ≠ some b then 0
      else s.boundaryIndex + 1) = advance parser.boundaryChars s.boundaryIndex b := by
    unfold advance
    by_cases h : parser.boundaryChars[s.boundaryIndex]? = some b
    · rw [if_pos h, if_neg (not_not.mpr h)]
    · rw [if_neg h, if_pos h]
  rw [step, hs]
  simp [hadvance]

section

variable (hlength : parser.boundary.length = parser.boundaryChars.length)

include hlength

lemma loop_content_end (hs : s.state = .content)
    (hindex : s.boundaryIndex < parser.boundaryChars.length)
    (h : searchEnd parser.boundaryChars s.boundaryIndex bytes = some n) :
    parser.loop decoder i (bytes ++ rest) s = (do
      let s ← parser.finishPart decoder (i + n - 1)
        { s with boundaryIndex := parser.boundaryChars.length }
      parser.loop decoder (i + n) (bytes.drop n ++ rest) s) := by
  induction bytes generalizing i s n with
  | nil => cases h
  | cons b bytes ih =>
    rw [searchEnd] at h
    rw [cons_append, loop_cons, step_content hs]
    split_ifs at h with hend
    · obtain rfl : 1 = n := Option.some.inj h
      have hfull : advance parser.boundaryChars s.boundaryIndex b = parser.boundaryChars.length := by
        unfold advance at hend ⊢
        split_ifs at hend ⊢ <;> omega
      rw [if_pos (hlength ▸ hend), hfull]
      rfl
    · obtain ⟨m, hm, rfl⟩ := Option.map_eq_some_iff.mp h
      have hrest := @ih { s with boundaryIndex := advance parser.boundaryChars s.boundaryIndex b }
        (i + 1) m hs (Nat.lt_of_not_ge hend) hm
      rw [if_neg (hlength ▸ hend)]
      refine hrest.trans ?_
      rw [Nat.add_assoc, Nat.add_comm 1]
      rfl

end

def IsBlankLine (body : Bytes) (i : ℕ) : Prop :=
  i ≠ 0 ∧ body[i - 1]? = some cr ∧ body[i]? = some lf ∧ body[i + 1]? = some cr ∧
    body[i + 2]? = some lf

lemma loop_headers (hs : s.state = .headers) (hbody : parser.body.drop i = bytes ++ rest)
    (h : ∀ k < bytes.length, ¬IsBlankLine parser.body (i + k)) :
    parser.loop decoder i (bytes ++ rest) s = parser.loop decoder (i + bytes.length) rest
        { s with headerText := s.headerText ++ latin1 bytes } := by
  induction bytes generalizing i s with
  | nil => simp [latin1]
  | cons b bytes ih =>
    have hb := getElem?_position hbody
    have hrest := @ih { s with headerText := s.headerText ++ [latin1Unit b] } (i + 1) hs
      (drop_succ hbody) (fun k hk => by
        have hblank := h (k + 1) (Nat.succ_lt_succ hk)
        rwa [Nat.add_comm k, ← Nat.add_assoc] at hblank)
    have hstep : parser.step decoder i b s =
        .ok { s with headerText := s.headerText ++ [latin1Unit b] } := by
      rw [step, hs]
      refine if_neg fun hend => h 0 (Nat.succ_pos _) ?_
      simp only [isNewLine, Bool.and_eq_true, decide_eq_true_eq] at hend
      exact ⟨hend.1.1.2, hend.1.2, hb.trans (congrArg some hend.1.1.1), hend.2.1, hend.2.2⟩
    rw [cons_append, loop_cons, hstep]
    refine hrest.trans ?_
    rw [Nat.add_assoc, Nat.add_comm 1]
    simp [latin1]

lemma step_blankLine (hs : s.state = .headers) (h : IsBlankLine parser.body i) :
    parser.step decoder i lf s = .ok { s with
        headerText := s.headerText ++ [latin1Unit lf], state := .content, fileStart := i + 3 } := by
  rw [step, hs]
  refine if_pos ⟨?_, h.2.2.2⟩
  simp [isNewLine, h.1, h.2.1]

lemma loop_skip (hs : s.state = .start ∨ s.state = .delimiter) (h : lf ∉ bytes) :
    parser.loop decoder i (bytes ++ rest) s = parser.loop decoder (i + bytes.length) rest s := by
  induction bytes generalizing i with
  | nil => rfl
  | cons b bytes ih =>
    rw [mem_cons, not_or] at h
    have hline : parser.isNewLine i b = false := by simp [isNewLine, Ne.symm h.1]
    have hstep : parser.step decoder i b s = .ok s := by
      rcases hs with hs | hs <;> simp [step, hs, hline]
    rw [cons_append, loop_cons, hstep]
    refine (@ih (i + 1) h.2).trans ?_
    rw [length_cons, Nat.add_assoc, Nat.add_comm 1]

lemma loop_line (hs : s.state = .start ∨ s.state = .delimiter) (h : lf ∉ bytes)
    (hbody : parser.body.drop i = bytes ++ (cr :: lf :: rest)) :
    parser.loop decoder i (bytes ++ (cr :: lf :: rest)) s =
      parser.loop decoder (i + bytes.length + 2) rest { s with state := .headers } := by
  have hcr := getElem?_position (drop_add_length hbody)
  have hline : parser.isNewLine (i + bytes.length + 1) lf := by simp [isNewLine, hcr]
  have hstep : parser.step decoder (i + bytes.length + 1) lf s =
      .ok { s with state := .headers } := by
    rcases hs with hs | hs <;> simp [step, hs, hline]
  have hskip := @loop_skip decoder parser s (i + bytes.length) [cr] (lf :: rest) hs (by decide)
  rw [loop_skip hs h]
  refine hskip.trans ?_
  rw [length_singleton, loop_cons, hstep]
  rfl

lemma drop_eq_of_getElem? {α : Type} {l : List α} {k : ℕ} {a : α} (h : l[k]? = some a) :
    l.drop k = a :: l.drop (k + 1) := by
  obtain ⟨hlt, rfl⟩ := List.getElem?_eq_some_iff.mp h
  exact drop_eq_getElem_cons hlt

lemma IsBlankLine.eq_append {body : Bytes} (h : IsBlankLine body i) :
    body = body.take (i - 1) ++ (crlf ++ crlf) ++ body.drop (i + 3) := by
  obtain ⟨hi, h₀, h₁, h₂, h₃⟩ := h
  obtain ⟨k, rfl⟩ : ∃ k, i = k + 1 := ⟨i - 1, by omega⟩
  have hdrop : body.drop k = (crlf ++ crlf) ++ body.drop (k + 4) := by
    rw [Nat.add_sub_cancel] at h₀
    rw [drop_eq_of_getElem? h₀, drop_eq_of_getElem? h₁, drop_eq_of_getElem? h₂,
      drop_eq_of_getElem? h₃]
    rfl
  rw [Nat.add_sub_cancel, append_assoc]
  conv_lhs => rw [← take_append_drop k body, hdrop]

end MultipartParser

/-! ### Bodies -/

/-- The first blank line is the one behind the headers. -/
def NoBlank (headers : Bytes) : Prop :=
  ∀ before after, headers ++ (crlf ++ crlf) = before ++ (crlf ++ crlf) ++ after → after = []

variable {headers : Bytes}

/-- It is enough that no blank line starts inside of the headers. -/
lemma noBlank_of_not_prefix
    (h : ∀ i < headers.length, ¬crlf ++ crlf <+: (headers ++ (crlf ++ crlf)).drop i) :
    NoBlank headers := by
  intro before after heq
  have hlength := congrArg List.length heq
  simp only [length_append] at hlength
  by_contra hne
  refine h before.length (by have := length_pos_of_ne_nil hne; omega) ?_
  rw [heq, append_assoc, drop_left]
  exact prefix_append _ _

lemma noBlank_nil : NoBlank [] := noBlank_of_not_prefix (by simp)

lemma NoBlank.cons {b : UInt8} (h : NoBlank headers)
    (hb : ¬crlf ++ crlf <+: b :: headers ++ (crlf ++ crlf)) : NoBlank (b :: headers) := by
  intro before after heq
  cases before with
  | nil => exact absurd ⟨after, heq.symm⟩ hb
  | cons b' before => exact h before after (List.cons.inj heq).2

lemma NoBlank.append {line headers : Bytes} (h : NoBlank headers) (hline : cr ∉ line) :
    NoBlank (line ++ headers) := by
  induction line with
  | nil => exact h
  | cons b line ih =>
    rw [mem_cons, not_or] at hline
    refine (ih hline.2).cons fun hb => hline.1 ?_
    obtain ⟨rest, hrest⟩ := hb
    exact (List.cons.inj hrest).1

lemma NoBlank.crlf_append (h : NoBlank headers) (hne : headers ≠ [])
    (hhead : headers.head? ≠ some cr) : NoBlank (crlf ++ headers) := by
  refine NoBlank.cons (NoBlank.cons h fun hb => ?_) fun hb => ?_
  · obtain ⟨rest, hrest⟩ := hb
    exact absurd (List.cons.inj hrest).1 (by decide)
  · obtain ⟨rest, hrest⟩ := hb
    cases headers with
    | nil => exact hne rfl
    | cons b headers =>
      have hb : cr = b := (List.cons.inj (List.cons.inj (List.cons.inj hrest).2).2).1
      rw [hb] at hhead
      exact hhead rfl

structure Part where
  headers : Bytes
  content : Bytes
  blank : NoBlank headers

/-- A boundary in ASCII, on one line. -/
structure Boundary where
  text : JsString
  ascii : ∀ u ∈ text, u < 0x80
  line : unit '\r' ∉ text ∧ unit '\n' ∉ text

section

variable (boundary : Boundary)

/-- The boundary in the body, at the start of a line. -/
def Boundary.delimiter : Bytes := encodeText (js "--" ++ boundary.text)

def Part.render (part : Part) : Bytes :=
  boundary.delimiter ++ crlf ++ part.headers ++ crlf ++ crlf ++ part.content ++ crlf

def renderBody (parts : List Part) : Bytes :=
  parts.flatMap (Part.render boundary) ++ boundary.delimiter ++ encodeText (js "--")

end

def Part.headerText (part : Part) : JsString := latin1 (part.headers ++ crlf)

/-- What the headers of the part make of some content: at most one entry. -/
def Part.entriesOf (decoder : TextDecoder) (part : Part) (content : Bytes) :
    Except AnyError (List FormDataEntry) := do
  let (headers, disposition) ← parseHeaders part.headerText
  MultipartParser.appendPart decoder [] headers disposition content

def Part.entries (decoder : TextDecoder) (part : Part) : Except AnyError (List FormDataEntry) :=
  part.entriesOf decoder part.content

/-- The headers of the part are read without an error, and they name it. -/
def Part.Named (part : Part) : Prop :=
  ∃ headers disposition, parseHeaders part.headerText = .ok (headers, disposition) ∧
    truthy (disposition.get? (js "name")) ≠ none

section

variable (boundary : Boundary)

lemma Boundary.delimiter_eq : boundary.delimiter =
    0x2D :: 0x2D :: boundary.text.map fun u => .ofNat u.toNat := by
  rw [delimiter, encodeText_ascii]
  · rfl
  · rw [forall_mem_append]
    exact ⟨ascii_of_all (by decide), boundary.ascii⟩

lemma Boundary.length_delimiter : boundary.delimiter.length = (js "--" ++ boundary.text).length := by
  rw [delimiter_eq, length_append]
  simp [js]
  omega

lemma Boundary.notMem_delimiter {b : UInt8} (hb : b = cr ∨ b = lf) : b ∉ boundary.delimiter := by
  rw [delimiter_eq]
  intro hmem
  rw [mem_cons, mem_cons, mem_map] at hmem
  rcases hmem with h | h | ⟨u, hu, h⟩
  · rcases hb with rfl | rfl <;> cases h
  · rcases hb with rfl | rfl <;> cases h
  · have hlt := UInt16.lt_iff_toNat_lt.mp (boundary.ascii u hu)
    have hnat : u.toNat = b.toNat := by
      rw [← h, toNat_ofNat_of_lt (by simp at hlt; omega)]
    rcases hb with rfl | rfl
    · obtain rfl : u = unit '\r' := UInt16.toNat_inj.mp hnat
      exact boundary.line.1 hu
    · obtain rfl : u = unit '\n' := UInt16.toNat_inj.mp hnat
      exact boundary.line.2 hu

end

/-! ### One part -/

namespace MultipartParser

section

variable {decoder : TextDecoder} {parser : MultipartParser} {s : ParserState} {i : ℕ}
  {rest : Bytes} {boundary : Boundary} {part : Part}

structure AfterDelimiter (s : ParserState) : Prop where
  state : s.state = .start ∨ s.state = .delimiter
  headerText : s.headerText = []
  boundaryIndex : s.boundaryIndex = 0

/-- The state in which the content of a part is read, from the blank line on. -/
def inContent (s : ParserState) (part : Part) (i : ℕ) : ParserState :=
  { s with state := .content, headerText := part.headerText, fileStart := i }

lemma not_isBlankLine (hbody : parser.body.drop i = crlf ++ (part.headers ++ (crlf ++ crlf) ++ rest))
    {k : ℕ} (hk : k ≤ part.headers.length) : ¬IsBlankLine parser.body (i + 2 + k) := by
  rintro ⟨-, h₀, h₁, h₂, h₃⟩
  have hline : parser.body.drop (i + 1) = lf :: (part.headers ++ (crlf ++ crlf) ++ rest) :=
    drop_succ hbody
  have hheaders : parser.body.drop (i + 2) = part.headers ++ (crlf ++ crlf) ++ rest :=
    drop_succ hline
  cases k with
  | zero =>
    rw [show i + 2 + 0 - 1 = i + 1 from rfl, getElem?_position hline] at h₀
    cases h₀
  | succ m =>
    have hget : ∀ j, j < part.headers.length + 4 →
        parser.body[i + 2 + j]? = (part.headers ++ (crlf ++ crlf))[j]? := by
      intro j hj
      rw [← getElem?_drop, hheaders, getElem?_append_left]
      simpa [crlf] using hj
    have hblank : IsBlankLine (part.headers ++ (crlf ++ crlf)) (m + 1) := by
      refine ⟨Nat.succ_ne_zero m, ?_, ?_, ?_, ?_⟩
      · rw [Nat.add_sub_cancel, ← hget m (by omega)]
        exact h₀
      · rw [← hget (m + 1) (by omega)]
        exact h₁
      · rw [← hget (m + 2) (by omega)]
        exact h₂
      · rw [← hget (m + 3) (by omega)]
        exact h₃
    have hend := congrArg List.length (part.blank _ _ hblank.eq_append)
    simp [crlf] at hend
    omega

lemma loop_part_headers (h : AfterDelimiter s)
    (hbody : parser.body.drop i = crlf ++ (part.headers ++ (crlf ++ crlf) ++ rest)) :
    parser.loop decoder i (crlf ++ (part.headers ++ (crlf ++ crlf) ++ rest)) s =
      parser.loop decoder (i + part.headers.length + 4) (crlf ++ rest)
        (inContent s part (i + part.headers.length + 6)) := by
  have hsplit : part.headers ++ (crlf ++ crlf) ++ rest =
      (part.headers ++ [cr]) ++ lf :: (crlf ++ rest) := by simp [crlf]
  have hheaders : parser.body.drop (i + 2) = (part.headers ++ [cr]) ++ lf :: (crlf ++ rest) :=
    (drop_succ (drop_succ hbody)).trans hsplit
  have hcr : parser.body.drop (i + 2 + part.headers.length) = cr :: lf :: (crlf ++ rest) := by
    rw [append_assoc] at hheaders
    exact drop_add_length hheaders
  have hlf := drop_succ hcr
  have hlast : IsBlankLine parser.body (i + 2 + (part.headers.length + 1)) :=
    ⟨by omega, getElem?_position hcr, getElem?_position hlf, getElem?_position (drop_succ hlf),
      getElem?_position (drop_succ (drop_succ hlf))⟩
  have hline := @loop_line decoder parser s i [] _ h.state not_mem_nil hbody
  refine hline.trans ?_
  rw [hsplit]
  have hloop := @loop_headers decoder parser { s with state := .headers } (i + 2)
    (part.headers ++ [cr]) (lf :: (crlf ++ rest)) rfl hheaders (fun k hk => by
      rw [length_append] at hk
      exact not_isBlankLine hbody (Nat.le_of_lt_succ hk))
  refine hloop.trans ?_
  rw [loop_cons, length_append, length_singleton, step_blankLine rfl hlast,
    show i + 2 + (part.headers.length + 1) + 3 = i + part.headers.length + 6 by omega,
    show i + 2 + (part.headers.length + 1) + 1 = i + part.headers.length + 4 by omega]
  have htext : s.headerText ++ latin1 (part.headers ++ [cr]) ++ [latin1Unit lf] =
      part.headerText := by
    simp [h.headerText, Part.headerText, latin1, crlf]
  rw [htext]
  rfl

lemma appendPart_eq (formData : FormData) (headers : Headers) (disposition : JsObject JsString)
    (content : Bytes) :
    appendPart decoder formData headers disposition content =
      (formData ++ ·) <$> appendPart decoder [] headers disposition content := by
  unfold appendPart
  cases truthy (disposition.get? (js "name")) with
  | none => simp [Functor.map, Except.map]
  | some latin1Name =>
    cases truthy (disposition.get? (js "filename")) with
    | none => rfl
    | some latin1Filename =>
      cases headers.get (js "Content-Type") with
      | error e | ok contentType => rfl

/-- The state behind the delimiter that ends a part. -/
def closed (s : ParserState) (entries : List FormDataEntry) (fileStart : ℕ) : ParserState :=
  { s with
    formData := s.formData ++ entries, state := .delimiter, boundaryIndex := 0, headerText := [],
    fileStart }

lemma finishPart_eq (part : Part) (hs : s.headerText = part.headerText) :
    parser.finishPart decoder i s = (do
      let entries ← part.entriesOf decoder
        (slice parser.body s.fileStart (i - s.boundaryIndex - 1 - s.fileStart))
      return closed s entries s.fileStart) := by
  rw [finishPart, Part.entriesOf, hs]
  generalize slice parser.body s.fileStart (i - s.boundaryIndex - 1 - s.fileStart) = content
  cases parseHeaders part.headerText with
  | error e => rfl
  | ok parsed =>
    obtain ⟨headers, disposition⟩ := parsed
    change (do let formData ← appendPart decoder s.formData headers disposition content; _) =
      (do let entries ← appendPart decoder [] headers disposition content; _)
    rw [appendPart_eq]
    cases appendPart decoder [] headers disposition content with
    | error e | ok entries => rfl

structure Fits (parser : MultipartParser) (boundary : Boundary) : Prop where
  text : parser.boundary = js "--" ++ boundary.text
  chars : parser.boundaryChars = boundary.delimiter

lemma searchEnd_crlf {index : ℕ} (hindex : index < boundary.delimiter.length) (bytes : Bytes) :
    searchEnd boundary.delimiter index (crlf ++ bytes) =
      (searchEnd boundary.delimiter 0 bytes).map (· + 2) := by
  have hreset : ∀ b : UInt8, b = cr ∨ b = lf → ∀ index, advance boundary.delimiter index b = 0 := by
    intro b hb index
    refine advance_of_ne fun hget => boundary.notMem_delimiter hb ?_
    exact mem_of_getElem? hget
  have hpos : ¬0 ≥ boundary.delimiter.length := by omega
  rw [crlf, cons_append, cons_append, searchEnd, searchEnd,
    hreset cr (.inl rfl), if_neg hpos, hreset lf (.inr rfl), if_neg hpos, Option.map_map]
  rfl

lemma delimiter_pos (boundary : Boundary) : 0 < boundary.delimiter.length := by
  exact Nat.succ_pos _

lemma delimiter_ne_nil (boundary : Boundary) : boundary.delimiter ≠ [] :=
  ne_nil_of_length_pos (delimiter_pos boundary)

/-- A part is read up to where the search for the delimiter ends. -/
lemma loop_part (hparser : parser.Fits boundary) (h : AfterDelimiter s) {n : ℕ}
    (hbody : parser.body.drop i = crlf ++ (part.headers ++ (crlf ++ crlf) ++ rest))
    (hend : searchEnd boundary.delimiter 0 rest = some n) :
    ∃ fileStart, parser.loop decoder i (crlf ++ (part.headers ++ (crlf ++ crlf) ++ rest)) s = (do
      let entries ← part.entriesOf decoder (rest.take (n - boundary.delimiter.length - 2))
      parser.loop decoder (i + part.headers.length + 6 + n) (rest.drop n)
        (closed s entries fileStart)) := by
  have hpos := delimiter_pos boundary
  have hlength : parser.boundary.length = parser.boundaryChars.length := by
    rw [hparser.text, hparser.chars, boundary.length_delimiter]
  have hcontent : parser.body.drop (i + part.headers.length + 6) = rest := by
    have hheaders : parser.body.drop (i + 2) = (part.headers ++ (crlf ++ crlf)) ++ rest :=
      drop_succ (drop_succ hbody)
    have hdrop := drop_add_length hheaders
    rwa [length_append, show i + 2 + (part.headers.length + (crlf ++ crlf).length) =
      i + part.headers.length + 6 by simp [crlf]; omega] at hdrop
  refine ⟨i + part.headers.length + 6, (loop_part_headers h hbody).trans ?_⟩
  have hloop := @loop_content_end decoder parser (inContent s part (i + part.headers.length + 6))
    (i + part.headers.length + 4) (n + 2) (crlf ++ rest) [] hlength rfl
    (by rw [hparser.chars]; exact h.boundaryIndex ▸ hpos) (by
      rw [hparser.chars]
      change searchEnd boundary.delimiter s.boundaryIndex (crlf ++ rest) = _
      rw [h.boundaryIndex, searchEnd_crlf hpos, hend]
      rfl)
  rw [append_nil, append_nil] at hloop
  refine hloop.trans ?_
  have hslice : slice parser.body (i + part.headers.length + 6) (i + part.headers.length + 4 +
      (n + 2) - 1 - parser.boundaryChars.length - 1 - (i + part.headers.length + 6)) =
      rest.take (n - boundary.delimiter.length - 2) := by
    rw [slice, hparser.chars]
    congr 1
    omega
  rw [finishPart_eq part rfl]
  dsimp only [inContent]
  rw [hslice]
  cases part.entriesOf decoder (rest.take (n - boundary.delimiter.length - 2)) with
  | error e => rfl
  | ok entries =>
    rw [show i + part.headers.length + 4 + (n + 2) = i + part.headers.length + 6 + n by omega]
    rfl

/-- A part behind the delimiter, up to the next one. -/
def after (boundary : Boundary) (part : Part) : Bytes :=
  crlf ++ (part.headers ++ (crlf ++ crlf) ++ (part.content ++ (crlf ++ boundary.delimiter)))

lemma after_append : after boundary part ++ rest = crlf ++ (part.headers ++ (crlf ++ crlf) ++
      (part.content ++ (crlf ++ (boundary.delimiter ++ rest)))) := by
  simp [after]

/-- A content in which the delimiter is not found ends at the next delimiter. -/
lemma searchEnd_content {content : Bytes} (h : searchEnd boundary.delimiter 0 content = none)
    (rest : Bytes) :
    searchEnd boundary.delimiter 0 (content ++ (crlf ++ (boundary.delimiter ++ rest))) =
      some (content.length + (2 + boundary.delimiter.length)) := by
  have hpos := delimiter_pos boundary
  have hdelimiter := @searchEnd_drop _ _ boundary.delimiter 0 hpos
  rw [drop_zero] at hdelimiter
  rw [searchEnd_append, h]
  dsimp only
  rw [searchEnd_crlf (searchIndex_lt hpos h), searchEnd_append, hdelimiter, Option.map_some,
    Option.map_some]
  congr 1
  omega

lemma loop_part_whole (hparser : parser.Fits boundary) (h : AfterDelimiter s)
    (hbody : parser.body.drop i = after boundary part ++ rest)
    (hcontent : searchEnd boundary.delimiter 0 part.content = none) :
    ∃ fileStart, parser.loop decoder i (after boundary part ++ rest) s = (do
      let entries ← part.entries decoder
      parser.loop decoder (i + (after boundary part).length) rest
        (closed s entries fileStart)) := by
  have hlength : (after boundary part).length = part.headers.length + 6 +
      (part.content.length + (2 + boundary.delimiter.length)) := by
    simp [after, crlf]
    omega
  rw [after_append] at hbody ⊢
  obtain ⟨fileStart, hloop⟩ := @loop_part decoder _ _ _ _ _ _ hparser h _ hbody
    (searchEnd_content hcontent rest)
  refine ⟨fileStart, hloop.trans ?_⟩
  rw [show part.content.length + (2 + boundary.delimiter.length) - boundary.delimiter.length - 2 =
    part.content.length by omega, take_left, hlength, ← append_assoc, ← append_assoc,
    drop_left' (by simp [crlf]; omega), Nat.add_assoc, Nat.add_assoc, Nat.add_assoc]
  rfl

/-- How the loop goes over some parts: up to an error, or to the state behind them. -/
def Passes (decoder : TextDecoder) (parser : MultipartParser) (i j : ℕ) (bytes rest : Bytes)
    (s : ParserState) : Except AnyError (List (List FormDataEntry)) → Prop
  | .error e => parser.loop decoder i (bytes ++ rest) s = .error e
  | .ok entries =>
    ∃ s', AfterDelimiter s' ∧ s'.formData = s.formData ++ entries.flatten ∧
      parser.loop decoder i (bytes ++ rest) s = parser.loop decoder j rest s'

lemma loop_parts (hparser : parser.Fits boundary) (h : AfterDelimiter s) (parts : List Part)
    (hbody : parser.body.drop i = parts.flatMap (after boundary) ++ rest)
    (hparts : ∀ part ∈ parts, searchEnd boundary.delimiter 0 part.content = none) :
    Passes decoder parser i (i + (parts.flatMap (after boundary)).length)
      (parts.flatMap (after boundary)) rest s (parts.mapM (Part.entries decoder)) := by
  induction parts generalizing i s with
  | nil => exact ⟨s, h, (append_nil _).symm, rfl⟩
  | cons part parts ih =>
    obtain ⟨hpart, hparts⟩ := List.forall_mem_cons.mp hparts
    rw [flatMap_cons, append_assoc] at hbody
    obtain ⟨fileStart, hloop⟩ := @loop_part_whole decoder _ _ _ _ _ _ hparser h hbody hpart
    rw [mapM_cons, flatMap_cons, length_append]
    cases hentries : part.entries decoder with
    | error e =>
      rw [hentries] at hloop
      change parser.loop decoder i _ s = _
      rw [append_assoc]
      exact hloop
    | ok entries =>
      rw [hentries] at hloop
      have hrest := ih (s := closed s entries fileStart) ⟨.inr rfl, rfl, rfl⟩
        (drop_add_length hbody) hparts
      have hfirst : parser.loop decoder i (after boundary part ++
          (parts.flatMap (after boundary) ++ rest)) s =
          parser.loop decoder (i + (after boundary part).length)
            (parts.flatMap (after boundary) ++ rest) (closed s entries fileStart) := hloop
      rw [← Nat.add_assoc]
      cases hmore : parts.mapM (Part.entries decoder) with
      | error e =>
        rw [hmore] at hrest
        change parser.loop decoder i _ s = _
        rw [append_assoc, hfirst]
        exact hrest
      | ok more =>
        rw [hmore] at hrest
        obtain ⟨s', hs', hdata, hnext⟩ := hrest
        refine ⟨s', hs', ?_, ?_⟩
        · rw [hdata, flatten_cons, ← append_assoc]
          rfl
        · rw [append_assoc, hfirst]
          exact hnext

end

/-! ### Whole bodies -/

section

variable {decoder : TextDecoder} {boundary : Boundary} {parts : List Part}

def dashes : Bytes := encodeText (js "--")

lemma renderBody_eq (boundary : Boundary) (parts : List Part) : renderBody boundary parts =
      boundary.delimiter ++ (parts.flatMap (after boundary) ++ dashes) := by
  change _ ++ dashes = _
  induction parts with
  | nil => simp
  | cons part parts ih =>
    rw [flatMap_cons, append_assoc, append_assoc, ← append_assoc (List.flatMap _ _),
      ih, Part.render]
    simp [after]

def parserOf (boundary : Boundary) (parts : List Part) : MultipartParser where
  boundary := js "--" ++ boundary.text
  body := renderBody boundary parts
  boundaryChars := boundary.delimiter

lemma afterDelimiter_initialState : AfterDelimiter initialState := ⟨.inl rfl, rfl, rfl⟩

lemma parseFormData_eq (hboundary : boundary.text ≠ []) (hparts : parts ≠ []) :
    parseFormData decoder (renderBody boundary parts) boundary.text =
      ParserState.formData <$> (parserOf boundary parts).loop decoder boundary.delimiter.length
        (parts.flatMap (after boundary) ++ dashes) initialState := by
  have hlength : ¬(renderBody boundary parts).length <
      (js "--" ++ boundary.text).length * 2 + 4 := by
    rw [← boundary.length_delimiter, renderBody_eq]
    obtain ⟨part, parts, rfl⟩ := exists_cons_of_ne_nil hparts
    simp [after, crlf]
    omega
  have hskip := @loop_skip decoder (parserOf boundary parts) initialState 0 boundary.delimiter
    (parts.flatMap (after boundary) ++ dashes) (.inl rfl) (boundary.notMem_delimiter (.inr rfl))
  rw [Nat.zero_add, ← renderBody_eq] at hskip
  rw [parseFormData, MultipartParser.new, if_neg hboundary]
  refine (if_neg hlength).trans ?_
  rw [← hskip]
  rfl

lemma fits_parserOf (boundary : Boundary) (parts : List Part) :
    (parserOf boundary parts).Fits boundary := ⟨rfl, rfl⟩

lemma drop_parserOf (boundary : Boundary) (parts : List Part) :
    (parserOf boundary parts).body.drop boundary.delimiter.length =
      parts.flatMap (after boundary) ++ dashes := by
  change (renderBody boundary parts).drop boundary.delimiter.length = _
  rw [renderBody_eq, drop_left]

/-- If the delimiter is found in none of the contents, the entries are those of the parts. -/
lemma parseFormData_parts (hboundary : boundary.text ≠ []) (hparts : parts ≠ [])
    (hcontents : ∀ part ∈ parts, searchEnd boundary.delimiter 0 part.content = none) :
    parseFormData decoder (renderBody boundary parts) boundary.text = (do
      let entries ← parts.mapM (Part.entries decoder)
      return entries.flatten) := by
  have hpasses := @loop_parts decoder _ _ _ dashes _ (fits_parserOf boundary parts)
    afterDelimiter_initialState parts (drop_parserOf boundary parts) hcontents
  rw [parseFormData_eq hboundary hparts]
  cases hentries : parts.mapM (Part.entries decoder) with
  | error e =>
    rw [hentries] at hpasses
    exact congrArg (ParserState.formData <$> ·) hpasses
  | ok entries =>
    rw [hentries] at hpasses
    obtain ⟨s', hs', hdata, hloop⟩ := hpasses
    have hend := fun j => @loop_skip decoder (parserOf boundary parts) s' j dashes [] hs'.state
      (by decide)
    rw [hloop, ← append_nil dashes, hend]
    change Except.ok s'.formData = Except.ok _
    rw [hdata]
    rfl

end

/-! ### A delimiter within a content -/

section

variable {decoder : TextDecoder} {parser : MultipartParser} {s s' : ParserState} {i : ℕ}
  {bytes : Bytes} {part : Part}

lemma finishPart_formData (h : parser.finishPart decoder i s = .ok s') :
    s.formData <+: s'.formData := by
  obtain ⟨⟨headers, disposition⟩, -, h⟩ := bind_eq_ok.mp h
  obtain ⟨formData, happend, h⟩ := bind_eq_ok.mp h
  rw [appendPart_eq] at happend
  cases hentries : appendPart decoder [] headers disposition
      (slice parser.body s.fileStart (i - s.boundaryIndex - 1 - s.fileStart)) with
  | error e =>
    rw [hentries] at happend
    cases happend
  | ok entries =>
    rw [hentries] at happend
    cases happend
    cases h
    exact prefix_append _ _

lemma step_formData {b : UInt8} (h : parser.step decoder i b s = .ok s') :
    s.formData <+: s'.formData := by
  cases hs : s.state with
  | start | delimiter =>
    simp only [step, hs, Except.ok.injEq] at h
    subst h
    split_ifs <;> exact prefix_rfl
  | headers =>
    simp only [step, hs] at h
    split_ifs at h <;> obtain rfl := Except.ok.inj h
    · exact prefix_rfl
    · exact prefix_rfl
  | content =>
    rw [step_content hs] at h
    split_ifs at h
    · have hprefix := finishPart_formData h
      exact hprefix
    · obtain rfl := Except.ok.inj h
      exact prefix_rfl

lemma loop_formData (h : parser.loop decoder i bytes s = .ok s') : s.formData <+: s'.formData := by
  induction bytes generalizing i s with
  | nil =>
    cases h
    exact prefix_rfl
  | cons b bytes ih =>
    obtain ⟨next, hstep, hrest⟩ := bind_eq_ok.mp h
    exact (step_formData hstep).trans (ih hrest)

lemma appendPart_unnamed {headers : Headers} {disposition : JsObject JsString} {content : Bytes}
    (hname : truthy (disposition.get? (js "name")) = none) :
    appendPart decoder [] headers disposition content = .ok [] := by
  unfold appendPart
  rw [hname]

lemma appendPart_cases (headers : Headers) (disposition : JsObject JsString) :
    (truthy (disposition.get? (js "name")) = none ∧
      ∀ content, appendPart decoder [] headers disposition content = .ok []) ∨
    (∃ name, ∀ content, appendPart decoder [] headers disposition content =
      .ok [⟨name, .text (usvString (decoder.decode content))⟩]) ∨
    ∃ name filename type, ∀ content, appendPart decoder [] headers disposition content =
      .ok [⟨name, .file ⟨filename, type, content⟩⟩] := by
  obtain ⟨contentType, hget⟩ :
      ∃ contentType, headers.get (js "Content-Type") = .ok contentType := ⟨_, rfl⟩
  cases hname : truthy (disposition.get? (js "name")) with
  | none => exact .inl ⟨rfl, fun _ => appendPart_unnamed hname⟩
  | some latin1Name =>
    right
    unfold appendPart
    rw [hget, hname]
    cases truthy (disposition.get? (js "filename")) with
    | none => exact .inl ⟨_, fun _ => rfl⟩
    | some latin1Filename =>
      exact .inr ⟨_, usvString (usvString (decodeLatin1StringAsUtf8 decoder latin1Filename)),
        normalizeType (normalizeType (normalizeType
          ((truthy contentType).getD (js "application/octet-stream")))), fun _ => rfl⟩

lemma usvString_decode (bytes : Bytes) : usvString (decoder.decode bytes) = decoder.decode bytes := by
  obtain ⟨cs, hcs⟩ := decoder.wellFormed bytes
  rw [usvString, hcs, scalars_encodeUtf16]

/-- The number of hyphens in the content can be read off an entry. -/
lemma entriesOf_count {content content' : Bytes} {entry : FormDataEntry}
    (h : part.entriesOf decoder content = .ok [entry]) :
    ∃ entry', part.entriesOf decoder content' = .ok [entry'] ∧
      (entry' = entry → content'.count 0x2D = content.count 0x2D) := by
  unfold Part.entriesOf at h ⊢
  obtain ⟨⟨headers, disposition⟩, hparsed, h⟩ := bind_eq_ok.mp h
  rw [hparsed]
  change appendPart decoder [] headers disposition content = _ at h
  rcases @appendPart_cases decoder headers disposition with
    ⟨-, happend⟩ | ⟨name, happend⟩ | ⟨name, filename, type, happend⟩
  · rw [happend] at h
    cases h
  · refine ⟨_, happend content', ?_⟩
    rw [happend] at h
    cases h
    intro heq
    have htext := (FormDataEntryValue.text.inj (FormDataEntry.mk.inj heq).2)
    rw [usvString_decode, usvString_decode] at htext
    rw [← decoder.ascii content' 0x2D (by decide) (by decide), htext,
      decoder.ascii content 0x2D (by decide) (by decide)]
  · refine ⟨_, happend content', ?_⟩
    rw [happend] at h
    cases h
    intro heq
    rw [(File.mk.inj (FormDataEntryValue.file.inj (FormDataEntry.mk.inj heq).2)).2.2]

variable {boundary : Boundary}

/-- A content that is cut off at a delimiter has fewer hyphens. -/
lemma count_take_lt {content : Bytes} {n : ℕ}
    (h : searchEnd boundary.delimiter 0 content = some n) :
    (content.take (n - boundary.delimiter.length - 2)).count 0x2D < content.count 0x2D := by
  obtain ⟨ws, heq, -⟩ := eq_of_searchEnd (delimiter_pos boundary) h
  have hle := searchEnd_le h
  rw [take_zero, nil_append] at heq
  have hlength := congrArg List.length heq
  rw [length_take, length_append] at hlength
  have hcut : content.take (n - boundary.delimiter.length - 2) =
      ws.flatten.take (n - boundary.delimiter.length - 2) := by
    have htake : (ws.flatten ++ boundary.delimiter).take (n - boundary.delimiter.length - 2) =
        ws.flatten.take (n - boundary.delimiter.length - 2) :=
      take_append_of_le_length (by omega)
    rw [← htake, ← heq, take_take, Nat.min_eq_left (by omega)]
  have hcount : content.count 0x2D = ws.flatten.count 0x2D + boundary.delimiter.count 0x2D +
      (content.drop n).count 0x2D := by
    conv_lhs => rw [← take_append_drop n content, heq]
    rw [count_append, count_append]
  have hdelimiter : 2 ≤ boundary.delimiter.count 0x2D := by
    rw [boundary.delimiter_eq, count_cons_self, count_cons_self]
    omega
  have hsub := (take_sublist (n - boundary.delimiter.length - 2) ws.flatten).count_le 0x2D
  rw [hcut]
  omega

variable {entries : List FormDataEntry}

lemma mapM_of_forall₂ {parts : List Part}
    (h : List.Forall₂ (fun part entry => part.entries decoder = .ok [entry]) parts entries) :
    parts.mapM (Part.entries decoder) = .ok (entries.map ([·])) :=
  mapM_eq_ok_iff.mpr (List.forall₂_map_right_iff.mpr h)

/-- The first part in whose content the delimiter is found does not get its entry. -/
lemma not_forall₂_of_found {goods more : List Part} {n : ℕ} (hboundary : boundary.text ≠ [])
    (hgoods : ∀ part ∈ goods, searchEnd boundary.delimiter 0 part.content = none)
    (hfound : searchEnd boundary.delimiter 0 part.content = some n)
    (hparse : parseFormData decoder (renderBody boundary (goods ++ part :: more)) boundary.text =
      .ok entries) :
    ¬List.Forall₂ (fun part entry => part.entries decoder = .ok [entry]) (goods ++ part :: more)
      entries := by
  intro hall
  obtain ⟨before, behind, hentries, hbefore, hbehind⟩ : ∃ before behind,
      entries = before ++ behind ∧
      List.Forall₂ (fun part entry => part.entries decoder = .ok [entry]) goods before ∧
      List.Forall₂ (fun part entry => part.entries decoder = .ok [entry]) (part :: more) behind :=
    ⟨entries.take goods.length, entries.drop goods.length, (take_append_drop _ _).symm,
      by simpa using forall₂_take goods.length hall,
      by simpa using forall₂_drop goods.length hall⟩
  cases hbehind with
  | @cons _ entry _ behind hpart hmore =>
    rw [parseFormData_eq hboundary (by simp)] at hparse
    have hsplit : (goods ++ part :: more).flatMap (after boundary) ++ dashes =
        goods.flatMap (after boundary) ++
          (after boundary part ++ (more.flatMap (after boundary) ++ dashes)) := by simp
    have hbody := drop_parserOf boundary (goods ++ part :: more)
    rw [hsplit] at hparse hbody
    -- the parts before it
    have hpasses := @loop_parts decoder _ _ _ _ _ (fits_parserOf boundary (goods ++ part :: more))
      afterDelimiter_initialState goods hbody hgoods
    rw [mapM_of_forall₂ hbefore] at hpasses
    obtain ⟨s, hs, hdata, hloop⟩ := hpasses
    have hdata : s.formData = before := by
      rw [hdata, ← flatMap_def, flatMap_singleton']
      rfl
    -- its content is cut off
    have hbody := drop_add_length hbody
    rw [after_append] at hparse hloop hbody
    obtain ⟨fileStart, hcut⟩ := @loop_part decoder _ _ _ _ _ _
      (fits_parserOf boundary (goods ++ part :: more)) hs n hbody (by rw [searchEnd_append, hfound])
    have hle := searchEnd_le hfound
    rw [take_append_of_le_length (by omega)] at hcut
    obtain ⟨entry', hentry', hcount⟩ := entriesOf_count hpart
    rw [hentry'] at hcut
    rw [hloop, hcut] at hparse
    obtain ⟨final, hfinal, hdata'⟩ := bind_eq_ok.mp hparse
    have hprefix := loop_formData hfinal
    have hsame : final.formData = before ++ entry :: behind := hentries ▸ Except.ok.inj hdata'
    have hclosed : (closed s [entry'] fileStart).formData = before ++ [entry'] := by
      rw [← hdata]
      rfl
    rw [hsame, hclosed, prefix_append_right_inj, cons_prefix_cons] at hprefix
    have hlt := count_take_lt hfound
    rw [hcount hprefix.1] at hlt
    exact absurd hlt (lt_irrefl _)

lemma exists_entry_iff : (∃ entry, part.entries decoder = .ok [entry]) ↔ part.Named := by
  unfold Part.entries Part.entriesOf
  constructor
  · rintro ⟨entry, h⟩
    obtain ⟨⟨headers, disposition⟩, hparsed, h⟩ := bind_eq_ok.mp h
    refine ⟨headers, disposition, hparsed, fun hname => ?_⟩
    have hnone : appendPart decoder [] headers disposition part.content = .ok [] :=
      appendPart_unnamed hname
    cases hnone.symm.trans h
  · rintro ⟨headers, disposition, hparsed, hname⟩
    rw [hparsed]
    rcases @appendPart_cases decoder headers disposition with
      ⟨hnone, -⟩ | ⟨name, happend⟩ | ⟨name, filename, type, happend⟩
    · exact absurd hnone hname
    · exact ⟨_, happend _⟩
    · exact ⟨_, happend _⟩

lemma exists_forall₂_iff {α β : Type} {R : α → β → Prop} {as : List α} :
    (∃ bs, List.Forall₂ R as bs) ↔ ∀ a ∈ as, ∃ b, R a b := by
  induction as with
  | nil => simp
  | cons a as ih =>
    rw [forall_mem_cons, ← ih]
    constructor
    · rintro ⟨_, _ | ⟨hab, hrest⟩⟩
      exact ⟨⟨_, hab⟩, _, hrest⟩
    · rintro ⟨⟨b, hab⟩, bs, hrest⟩
      exact ⟨b :: bs, .cons hab hrest⟩

lemma exists_first_found {parts : List Part} (hpart : part ∈ parts)
    (hfound : IsFound boundary.delimiter part.content) :
    ∃ goods bad more n, parts = goods ++ bad :: more ∧
      (∀ good ∈ goods, searchEnd boundary.delimiter 0 good.content = none) ∧
      searchEnd boundary.delimiter 0 bad.content = some n := by
  obtain ⟨n, hn⟩ := (isFound_iff (delimiter_ne_nil boundary)).mp hfound
  have hsome : (parts.find? fun part =>
      (searchEnd boundary.delimiter 0 part.content).isSome).isSome :=
    List.find?_isSome.mpr ⟨part, hpart, by rw [hn]; rfl⟩
  obtain ⟨bad, hbad⟩ := Option.isSome_iff_exists.mp hsome
  obtain ⟨hend, goods, more, heq, hgoods⟩ := List.find?_eq_some_iff_append.mp hbad
  obtain ⟨m, hm⟩ := Option.isSome_iff_exists.mp hend
  exact ⟨goods, bad, more, m, heq, fun good hgood => by simpa using hgoods good hgood, hm⟩

/-- Every part gets its entry iff the parser finds no delimiter in a content. The headers are read
and the entry is made as for the part alone. -/
theorem parseFormData_parts_iff (decoder : TextDecoder) (boundary : Boundary) (parts : List Part)
    (hparts : parts ≠ []) :
    (∃ entries, parseFormData decoder (renderBody boundary parts) boundary.text = .ok entries ∧
      List.Forall₂ (fun part entry => part.entries decoder = .ok [entry]) parts entries) ↔
      boundary.text ≠ [] ∧
        ∀ part ∈ parts, part.Named ∧ ¬IsFound boundary.delimiter part.content := by
  constructor
  · rintro ⟨entries, hparse, hall⟩
    have hboundary : boundary.text ≠ [] := by
      intro hempty
      rw [hempty] at hparse
      cases hparse
    refine ⟨hboundary, fun part hpart => ⟨?_, fun hfound => ?_⟩⟩
    · exact exists_entry_iff.mp (exists_forall₂_iff.mp ⟨entries, hall⟩ part hpart)
    · obtain ⟨goods, bad, more, n, rfl, hgoods, hbad⟩ := exists_first_found hpart hfound
      exact not_forall₂_of_found hboundary hgoods hbad hparse hall
  · rintro ⟨hboundary, hall⟩
    obtain ⟨entries, hentries⟩ : ∃ entries,
        List.Forall₂ (fun part entry => part.entries decoder = .ok [entry]) parts entries :=
      exists_forall₂_iff.mpr fun part hpart => exists_entry_iff.mpr (hall part hpart).1
    have hnone : ∀ part ∈ parts, searchEnd boundary.delimiter 0 part.content = none := by
      intro part hpart
      refine Option.eq_none_iff_forall_ne_some.mpr fun n hn => (hall part hpart).2 ?_
      exact (isFound_iff (delimiter_ne_nil boundary)).mpr ⟨n, hn⟩
    refine ⟨entries, ?_, hentries⟩
    rw [parseFormData_parts hboundary hparts hnone, mapM_of_forall₂ hentries]
    change Except.ok (entries.map ([·])).flatten = _
    rw [← flatMap_def, flatMap_singleton']

end

def letterBoundary : Boundary where
  text := js "B"
  ascii := ascii_of_all (by decide)
  line := by decide

def partOf (content : Bytes) : Part where
  headers := encodeText (js "Content-Disposition: form-data; name=\"x\"")
  content := content
  blank := noBlank_of_not_prefix (by decide +kernel)

lemma named_partOf (content : Bytes) : (partOf content).Named := by
  have hentry : (partOf []).entries utf8Decoder = .ok [⟨js "x", .text []⟩] := by decide +kernel
  have hnamed : (partOf []).Named := exists_entry_iff.mp ⟨_, hentry⟩
  exact hnamed

/-- Hyphens that do not go on with the boundary stay in the content. -/
theorem parseFormData_hyphens : ∃ entries, parseFormData utf8Decoder
        (renderBody letterBoundary [partOf (encodeText (js "a--b")), partOf (encodeText (js "--"))])
        letterBoundary.text = .ok entries ∧
      List.Forall₂ (fun part entry => part.entries utf8Decoder = .ok [entry])
        [partOf (encodeText (js "a--b")), partOf (encodeText (js "--"))] entries := by
  refine (parseFormData_parts_iff utf8Decoder letterBoundary _ (by simp)).mpr ⟨by decide, ?_⟩
  intro part hpart
  have hnone : searchEnd letterBoundary.delimiter 0 part.content = none := by
    revert part
    decide +kernel
  refine ⟨?_, fun hfound => ?_⟩
  · simp only [mem_cons, not_mem_nil, or_false] at hpart
    rcases hpart with rfl | rfl <;> exact named_partOf _
  · obtain ⟨n, hn⟩ := (isFound_iff (delimiter_ne_nil letterBoundary)).mp hfound
    cases hnone.symm.trans hn

/-- The boundary in the middle of a line ends the part. -/
theorem parseFormData_cut_inside_line :
    ¬crlf ++ letterBoundary.delimiter <:+: (partOf (encodeText (js "to--Be"))).content ∧
      (partOf (encodeText (js "to--Be"))).entries utf8Decoder =
        .ok [⟨js "x", .text (js "to--Be")⟩] ∧
      parseFormData utf8Decoder (renderBody letterBoundary [partOf (encodeText (js "to--Be"))])
        (js "B") = .ok [⟨js "x", .text []⟩] := by
  refine ⟨by decide +kernel, by decide +kernel, by decide +kernel⟩

end MultipartParser

end Deno.Fetch
