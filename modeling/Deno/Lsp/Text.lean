import Deno.Core.Text
import Deno.Error
import Mathlib.Data.List.Induction

/-!
# The line index

The index of a text holds the offsets at which its lines start and, for lines with characters
outside ASCII, where these are. `offset` finds the byte offset of a position by it: for every
position of the text it is the number of bytes in front of that position.
-/

namespace Deno

open Core List
open String (utf8Len)

structure LspRange where
  start : Position
  stop : Position
  deriving DecidableEq

/-- A character outside ASCII: the bytes of its line between which it stands. -/
structure Utf16Char where
  start : ℕ
  stop : ℕ
  deriving DecidableEq

namespace Utf16Char

def len (c : Utf16Char) : ℕ := c.stop - c.start

def lenUtf16 (c : Utf16Char) : ℕ := if c.len = 4 then 2 else 1

end Utf16Char

structure LineIndex where
  utf8Offsets : List ℕ
  utf16Lines : List (ℕ × List Utf16Char)
  utf16Offsets : List ℕ
  deriving DecidableEq

namespace LineIndex

/-! ### Building an index -/

/-- The variables of the loop of `LineIndex::new`. -/
structure Building where
  utf16Lines : List (ℕ × List Utf16Char)
  utf16Chars : List Utf16Char
  utf8Offsets : List ℕ
  utf16Offsets : List ℕ
  currRow : ℕ
  currCol : ℕ
  currOffsetU16 : ℕ
  line : ℕ

def Building.initial : Building := ⟨[], [], [0], [0], 0, 0, 0, 0⟩

/-- The lines with characters outside ASCII once the current line is done. -/
def Building.insertLine (b : Building) : List (ℕ × List Utf16Char) :=
  if b.utf16Chars.isEmpty then b.utf16Lines else b.utf16Lines ++ [(b.line, b.utf16Chars)]

def isAscii (c : Char) : Bool := c.val ≤ 127

/-- The body of the loop. -/
def Building.step (b : Building) (c : Char) : Building :=
  let cLen := c.utf8Size
  let currRow := b.currRow + cLen
  let currOffsetU16 := b.currOffsetU16 + charUtf16 c
  if c = '\n' then
    { utf16Lines := b.insertLine
      utf16Chars := []
      utf8Offsets := b.utf8Offsets ++ [currRow]
      utf16Offsets := b.utf16Offsets ++ [currOffsetU16]
      currRow := currRow
      currCol := 0
      currOffsetU16 := currOffsetU16
      line := b.line + 1 }
  else
    { b with
      utf16Chars :=
        if isAscii c then b.utf16Chars else b.utf16Chars ++ [⟨b.currCol, b.currCol + cLen⟩]
      currRow := currRow
      currCol := b.currCol + cLen
      currOffsetU16 := currOffsetU16 }

def Building.finish (b : Building) : LineIndex where
  utf8Offsets := b.utf8Offsets ++ [b.currRow]
  utf16Lines := b.insertLine
  utf16Offsets := b.utf16Offsets ++ [b.currOffsetU16]

def new (text : List Char) : LineIndex := (text.foldl Building.step .initial).finish

/-! ### Looking up offsets -/

/-- The loop of `utf16_to_utf8_col`. -/
def widen : List Utf16Char → ℕ → ℕ
  | [], col => col
  | c :: cs, col => if c.start < col then widen cs (col + (c.len - c.lenUtf16)) else col

variable (self : LineIndex)

def utf16ToUtf8Col (line col : ℕ) : ℕ :=
  match self.utf16Lines.lookup line with
  | some utf16Chars => widen utf16Chars col
  | none => col

def offset (position : Position) : Except AnyError ℕ :=
  let col := self.utf16ToUtf8Col position.line position.character
  match self.utf8Offsets[position.line]? with
  | some lineOffset => .ok (lineOffset + col)
  | none => .error (.custom "OutOfRange" "The position is out of range.")

/-- `get_text_range`; a range whose end comes before its start cannot be built. -/
def getTextRange (range : LspRange) : Except AnyError (ℕ × ℕ) := do
  let start ← self.offset range.start
  let stop ← self.offset range.stop
  if start ≤ stop then return (start, stop)
  else .error (.panic "assertion failed: start <= end")

/-! ### What the index of a text holds -/

/-- The characters outside ASCII of a line, the text starting at the given column. -/
def nonAscii : ℕ → List Char → List Utf16Char
  | _, [] => []
  | col, c :: cs =>
    if isAscii c then nonAscii (col + c.utf8Size) cs
    else ⟨col, col + c.utf8Size⟩ :: nonAscii (col + c.utf8Size) cs

lemma nonAscii_append (col : ℕ) (cs ds : List Char) :
    nonAscii col (cs ++ ds) = nonAscii col cs ++ nonAscii (col + utf8Len cs) ds := by
  induction cs generalizing col with
  | nil => simp [nonAscii]
  | cons c cs ih =>
    rw [cons_append, nonAscii, nonAscii, ih]
    have hcol : col + c.utf8Size + utf8Len cs = col + (utf8Len cs + c.utf8Size) := by omega
    split_ifs <;> simp [hcol]

/-- The loop stands in a line that starts at offset `start`, behind the characters `line`. -/
structure Building.Within (b : Building) (start : ℕ) (line : List Char) : Prop where
  lineStart : b.utf8Offsets[b.line]? = some start
  length : b.utf8Offsets.length = b.line + 1
  row : b.currRow = start + utf8Len line
  col : b.currCol = utf8Len line
  chars : b.utf16Chars = nonAscii 0 line
  keys : ∀ entry ∈ b.utf16Lines, entry.1 < b.line

variable {c : Char}

namespace Building

lemma step_newline (b : Building) : b.step '\n' =
    ⟨b.insertLine, [], b.utf8Offsets ++ [b.currRow + 1], b.utf16Offsets ++ [b.currOffsetU16 + 1],
      b.currRow + 1, 0, b.currOffsetU16 + 1, b.line + 1⟩ := rfl

lemma step_char (b : Building) (hc : c ≠ '\n') : b.step c = { b with
    utf16Chars := if isAscii c then b.utf16Chars
      else b.utf16Chars ++ [⟨b.currCol, b.currCol + c.utf8Size⟩]
    currRow := b.currRow + c.utf8Size
    currCol := b.currCol + c.utf8Size
    currOffsetU16 := b.currOffsetU16 + charUtf16 c } := if_neg hc

lemma within_initial : Building.initial.Within 0 [] :=
  ⟨rfl, rfl, rfl, rfl, rfl, fun _ h => nomatch h⟩

lemma mem_insertLine {b : Building} {entry : ℕ × List Utf16Char} (h : entry ∈ b.insertLine) :
    entry ∈ b.utf16Lines ∨ entry.1 = b.line := by
  unfold insertLine at h
  split_ifs at h
  · exact Or.inl h
  · rcases List.mem_append.mp h with h | h
    · exact Or.inl h
    · rw [List.mem_singleton.mp h]
      exact Or.inr rfl

variable {b : Building} {start : ℕ} {line : List Char}

lemma Within.newline (h : b.Within start line) :
    (b.step '\n').Within (b.currRow + 1) [] ∧ (b.step '\n').line = b.line + 1 := by
  rw [b.step_newline]
  refine ⟨⟨?_, ?_, rfl, rfl, rfl, fun entry hentry => ?_⟩, rfl⟩
  · rw [getElem?_append_right h.length.le, h.length]
    simp
  · rw [length_append, h.length]
    rfl
  · rcases mem_insertLine hentry with hentry | hentry
    · exact (h.keys entry hentry).trans (Nat.lt_succ_self _)
    · exact hentry ▸ Nat.lt_succ_self _

lemma Within.char (h : b.Within start line) (hc : c ≠ '\n') :
    (b.step c).Within start (line ++ [c]) ∧ (b.step c).line = b.line := by
  have hlen : utf8Len (line ++ [c]) = utf8Len line + c.utf8Size := by
    rw [String.utf8Len_append, String.utf8Len_cons, String.utf8Len_nil, Nat.zero_add]
  rw [b.step_char hc]
  refine ⟨⟨h.lineStart, h.length, ?_, ?_, ?_, h.keys⟩, rfl⟩
  · rw [hlen, ← Nat.add_assoc, ← h.row]
  · rw [hlen, ← h.col]
  · rw [nonAscii_append, ← h.chars, ← h.col]
    by_cases ha : isAscii c = true <;> simp [nonAscii, ha]

lemma exists_within (text : List Char) : ∃ start line,
    (text.foldl step .initial).Within start line ∧ start + utf8Len line = utf8Len text ∧
      positionAfter text = ⟨(text.foldl step .initial).line, utf16Len line⟩ := by
  induction text using List.reverseRecOn with
  | nil => exact ⟨0, [], within_initial, rfl, rfl⟩
  | append_singleton text c ih =>
    obtain ⟨start, line, hwithin, hlen, hpos⟩ := ih
    have hpos' : positionAfter (text ++ [c]) = (positionAfter text).advance c :=
      Position.after_append _ _ _
    have hlen' : utf8Len (text ++ [c]) = utf8Len text + c.utf8Size := by
      rw [String.utf8Len_append, String.utf8Len_cons, String.utf8Len_nil, Nat.zero_add]
    rw [foldl_append, foldl_cons, foldl_nil, hpos', hpos, hlen']
    by_cases hc : c = '\n'
    · subst hc
      obtain ⟨h, hline⟩ := hwithin.newline
      refine ⟨_, [], h, ?_, ?_⟩
      · rw [hwithin.row, hlen]
        rfl
      · rfl
    · obtain ⟨h, hline⟩ := hwithin.char hc
      refine ⟨start, line ++ [c], h, ?_, ?_⟩
      · rw [String.utf8Len_append, ← Nat.add_assoc, hlen, String.utf8Len_cons, String.utf8Len_nil,
          Nat.zero_add]
      · rw [hline, Position.advance, if_neg hc]
        simp [utf16Len]

/-! ### What comes later does not matter -/

section

variable (b : Building)

/-- A step may end the current line and start another one; nothing else changes. -/
lemma step_cases (c : Char) : b.utf8Offsets <+: (b.step c).utf8Offsets ∧
    (((b.step c).line = b.line + 1 ∧ (b.step c).utf16Lines = b.insertLine) ∨
      ((b.step c).line = b.line ∧ (b.step c).utf16Lines = b.utf16Lines)) := by
  by_cases hc : c = '\n'
  · subst hc
    exact ⟨prefix_append _ _, Or.inl ⟨rfl, rfl⟩⟩
  · rw [b.step_char hc]
    exact ⟨prefix_rfl, Or.inr ⟨rfl, rfl⟩⟩

lemma utf8Offsets_finish (text : List Char) :
    b.utf8Offsets <+: (text.foldl step b).finish.utf8Offsets := by
  induction text generalizing b with
  | nil => exact prefix_append _ _
  | cons c text ih => exact (b.step_cases c).1.trans (ih (b.step c))

lemma lookup_insertLine {k : ℕ} (hk : k ≠ b.line) :
    b.insertLine.lookup k = b.utf16Lines.lookup k := by
  unfold insertLine
  split_ifs
  · rfl
  · rw [List.lookup_append]
    have hne : (k == b.line) = false := by simpa using hk
    simp [List.lookup_cons, hne]

lemma lookup_finish (text : List Char) {k : ℕ} (hk : k < b.line) :
    (text.foldl step b).finish.utf16Lines.lookup k = b.utf16Lines.lookup k := by
  induction text generalizing b with
  | nil => exact lookup_insertLine b hk.ne
  | cons c text ih =>
    rcases (b.step_cases c).2 with ⟨hline, hlines⟩ | ⟨hline, hlines⟩
    · rw [foldl_cons, ih _ (by omega), hlines, lookup_insertLine b hk.ne]
    · rw [foldl_cons, ih _ (by omega), hlines]

end

/-- The entry of the current line, once it is done. -/
lemma Within.lookup_insertLine (h : b.Within start line) :
    (b.insertLine.lookup b.line).getD [] = nonAscii 0 line := by
  have hnone : b.utf16Lines.lookup b.line = none := by
    refine List.lookup_eq_none_iff.mpr fun entry hentry => ?_
    simpa using (h.keys entry hentry).ne'
  unfold insertLine
  split_ifs with hempty
  · rw [hnone, ← h.chars, List.isEmpty_iff.mp hempty]
    rfl
  · rw [List.lookup_append, hnone, ← h.chars]
    simp

/-- In the end the entry of the current line holds the characters of the whole line. -/
lemma Within.lookup_finish (h : b.Within start line) (text : List Char) :
    ((text.foldl step b).finish.utf16Lines.lookup b.line).getD [] =
      nonAscii 0 (line ++ text.takeWhile (· ≠ '\n')) := by
  induction text generalizing b line with
  | nil =>
    rw [takeWhile_nil, append_nil]
    exact h.lookup_insertLine
  | cons c text ih =>
    rw [foldl_cons]
    by_cases hc : c = '\n'
    · subst hc
      obtain ⟨_, hline⟩ := h.newline
      rw [Building.lookup_finish _ text (hline ▸ Nat.lt_succ_self _), takeWhile_cons_of_neg
        (by simp), append_nil]
      exact h.lookup_insertLine
    · obtain ⟨hwithin, hline⟩ := h.char hc
      rw [← hline, ih hwithin, takeWhile_cons_of_pos (by simpa using hc), append_assoc]
      rfl

end Building

/-! ### Offsets of positions -/

lemma utf8Size_of_isAscii (h : isAscii c = true) : c.utf8Size = 1 ∧ charUtf16 c = 1 := by
  have hsize : c.utf8Size = 1 := by
    exact if_pos (by simpa [isAscii] using h)
  exact ⟨hsize, by rw [charUtf16_eq, hsize]; rfl⟩

/-- Columns behind the characters `cs` of a line, which starts at byte `col`, are widened by what
these characters have more bytes than units. -/
lemma widen_nonAscii (col : ℕ) (cs ds : List Char) :
    widen (nonAscii col (cs ++ ds)) (col + utf16Len cs) = col + utf8Len cs := by
  induction cs generalizing col with
  | nil =>
    -- the first character behind the column ends the loop
    have hstart : ∀ (ds : List Char) (col' : ℕ), col ≤ col' →
        widen (nonAscii col' ds) col = col := by
      intro ds
      induction ds with
      | nil => intro col' _; rfl
      | cons c ds ih =>
        intro col' hle
        unfold nonAscii
        split_ifs
        · exact ih _ (by omega)
        · rw [widen, if_neg (by simp only; omega)]
    exact hstart ds col le_rfl
  | cons c cs ih =>
    have hunits := charUtf16_pos c
    rw [cons_append, nonAscii, utf16Len_cons, String.utf8Len_cons]
    split_ifs with ha
    · obtain ⟨h8, h16⟩ := utf8Size_of_isAscii ha
      have := ih (col + c.utf8Size)
      rw [h8] at this ⊢
      rw [h16, ← Nat.add_assoc]
      omega
    · have hlen : (⟨col, col + c.utf8Size⟩ : Utf16Char).len = c.utf8Size := by
        simp [Utf16Char.len]
      have h16 : (⟨col, col + c.utf8Size⟩ : Utf16Char).lenUtf16 = charUtf16 c := by
        rw [Utf16Char.lenUtf16, hlen, charUtf16_eq]
      have hle : charUtf16 c ≤ c.utf8Size := by
        have := c.utf8Size_pos
        rw [charUtf16_eq]
        split_ifs <;> omega
      rw [widen, if_pos (by simp only; omega), hlen, h16]
      have hcol : col + (charUtf16 c + utf16Len cs) + (c.utf8Size - charUtf16 c) =
          col + c.utf8Size + utf16Len cs := by omega
      rw [hcol, ih]
      omega

/-- The offset of a position of the text is the number of bytes in front of it. -/
theorem offset_positionAfter (before after : List Char) :
    (new (before ++ after)).offset (positionAfter before) = .ok (utf8Len before) := by
  obtain ⟨start, line, hwithin, hlen, hpos⟩ := Building.exists_within before
  have hnew : new (before ++ after) =
      (after.foldl Building.step (before.foldl Building.step .initial)).finish := by
    rw [new, foldl_append]
  generalize before.foldl Building.step .initial = b at hwithin hpos hnew
  have hoffset : (new (before ++ after)).utf8Offsets[b.line]? = some start := by
    rw [hnew]
    obtain ⟨rest, hrest⟩ := b.utf8Offsets_finish after
    rw [← hrest, getElem?_append_left (hwithin.length ▸ Nat.lt_succ_self _)]
    exact hwithin.lineStart
  have hcol : (new (before ++ after)).utf16ToUtf8Col b.line (utf16Len line) = utf8Len line := by
    have hchars := hwithin.lookup_finish after
    have hwiden := widen_nonAscii 0 line (after.takeWhile (· ≠ '\n'))
    rw [Nat.zero_add, Nat.zero_add, ← hchars, ← hnew] at hwiden
    unfold utf16ToUtf8Col
    cases hl : (new (before ++ after)).utf16Lines.lookup b.line with
    | none | some chars => rwa [hl] at hwiden
  rw [hpos, offset]
  simp [hoffset, hcol, hlen]

end LineIndex

end Deno
