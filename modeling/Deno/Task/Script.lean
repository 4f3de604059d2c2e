import Deno.Core.Replace
import Deno.Core.Whitespace

/-!
# The arguments of a task

The arguments of `deno task` are put behind the script of the task, each between double quotes. The
shell reads them back as words.
-/

namespace Deno.Task

open Core List

/-! ### The script -/

/-- What stands between the quotes: the quotes and the dollar signs are escaped. -/
def escapeArg (arg : List Char) : List Char :=
  replaceAll '$' ['\\', '$'] (replaceAll '"' ['\\', '"'] arg)

def quoteArg (arg : List Char) : List Char := '"' :: escapeArg arg ++ ['"']

def additionalArgs (argv : List (List Char)) : List Char := [' '].intercalate (argv.map quoteArg)

def getScriptWithArgs (script : List Char) (argv : List (List Char)) : List Char :=
  trim (script ++ ' ' :: additionalArgs argv)

def appendedArgs (script : List Char) (argv : List (List Char)) : List Char :=
  (getScriptWithArgs script argv).drop (trimStart (script ++ [' '])).length

/-! ### The shell -/

/-- A piece of a word: a character, or one that starts an expansion or a substitution. -/
inductive Piece where
  | text (c : Char)
  | expansion (c : Char)
  deriving DecidableEq

/-- The characters that a backslash takes the meaning from. -/
def escapable (c : Char) : Bool := ['"', '$', '`', '\\'].contains c

/-- The piece that a character is when no backslash stands before it. -/
def pieceOf (c : Char) : Piece := if c = '$' ∨ c = '`' then .expansion c else .text c

def addPiece (piece : Piece) (word : Option (List Piece × List Char)) :
    Option (List Piece × List Char) :=
  word.map fun (pieces, rest) => (piece :: pieces, rest)

/-- The word behind an opening quote, and what comes behind its closing quote. -/
def readQuoted : List Char → Option (List Piece × List Char)
  | [] => none
  | [c] => if c = '"' then some ([], []) else none
  | c :: d :: rest =>
    if c = '"' then some ([], d :: rest)
    else if c = '\\' ∧ escapable d then addPiece (.text d) (readQuoted rest)
    else addPiece (pieceOf c) (readQuoted (d :: rest))

lemma addPiece_eq_some {piece : Piece} {word : Option (List Piece × List Char)}
    {pieces : List Piece} {rest : List Char} :
    addPiece piece word = some (pieces, rest) ↔
      ∃ others, word = some (others, rest) ∧ pieces = piece :: others := by
  simp only [addPiece, Option.map_eq_some_iff, Prod.exists, Prod.mk.injEq]
  constructor
  · rintro ⟨others, _, hword, rfl, rfl⟩
    exact ⟨others, hword, rfl⟩
  · rintro ⟨others, hword, rfl⟩
    exact ⟨others, rest, hword, rfl, rfl⟩

lemma length_readQuoted {text rest : List Char} {word : List Piece}
    (h : readQuoted text = some (word, rest)) : rest.length < text.length := by
  induction text using readQuoted.induct generalizing word with
  | case1 => simp [readQuoted] at h
  | case2 | case3 | case4 => simp_all [readQuoted]
  | case5 c d text hc hd ih =>
    simp only [readQuoted, if_neg hc, if_pos hd, addPiece_eq_some] at h
    obtain ⟨others, hothers, -⟩ := h
    have := ih hothers
    simp only [length_cons]
    omega
  | case6 c d text hc hd ih =>
    simp only [readQuoted, if_neg hc, if_neg hd, addPiece_eq_some] at h
    obtain ⟨others, hothers, -⟩ := h
    have := ih hothers
    simp only [length_cons] at this ⊢
    omega

/-- The words of a text of quoted words with blanks between them. -/
def readWords (text : List Char) : Option (List (List Piece)) :=
  match text with
  | [] => some []
  | c :: behind =>
    if c ≠ '"' then none
    else
      match _h : readQuoted behind with
      | none => none
      | some (word, []) => some [word]
      | some (word, d :: rest) => if d = ' ' then (readWords rest).map (word :: ·) else none
termination_by text.length
decreasing_by
  have hlt := length_readQuoted _h
  simp only [length_cons] at hlt ⊢
  omega

/-! ### One quoted word -/

@[simp] lemma readQuoted_quote (rest : List Char) : readQuoted ('"' :: rest) = some ([], rest) := by
  cases rest <;> simp [readQuoted]

variable {d : Char}

lemma readQuoted_escape (hd : escapable d) (rest : List Char) :
    readQuoted ('\\' :: d :: rest) = addPiece (.text d) (readQuoted rest) := by
  simp [readQuoted, hd]

lemma readQuoted_backslash (hd : ¬ escapable d) (rest : List Char) :
    readQuoted ('\\' :: d :: rest) = addPiece (.text '\\') (readQuoted (d :: rest)) := by
  simp [readQuoted, hd, pieceOf]

variable {c : Char}

/-- A character other than a quote and a backslash is a piece of its own. -/
lemma readQuoted_pieceOf (hquote : c ≠ '"') (hslash : c ≠ '\\') (rest : List Char) :
    readQuoted (c :: rest) = addPiece (pieceOf c) (readQuoted rest) := by
  cases rest <;> simp [readQuoted, hquote, hslash, addPiece]

lemma readQuoted_plain (hc : ¬ escapable c) (rest : List Char) :
    readQuoted (c :: rest) = addPiece (.text c) (readQuoted rest) := by
  simp only [escapable, contains_cons, contains_nil, Bool.or_false, Bool.or_eq_true,
    beq_iff_eq, not_or] at hc
  obtain ⟨hquote, hdollar, htick, hslash⟩ := hc
  rw [readQuoted_pieceOf hquote hslash]
  simp [pieceOf, hdollar, htick]

/-- The word that is read starts with the given text, with no expansion in it. -/
def StartsWith (text word : List Char) : Prop :=
  ∃ pieces rest, readQuoted text = some (pieces, rest) ∧ word.map .text <+: pieces

variable {c d : Char}

lemma startsWith_of_addPiece {text behind word : List Char}
    (h : readQuoted text = addPiece (.text c) (readQuoted behind)) :
    StartsWith text (d :: word) ↔ d = c ∧ StartsWith behind word := by
  simp only [StartsWith, h, addPiece_eq_some]
  constructor
  · rintro ⟨_, rest, ⟨others, hothers, rfl⟩, hpre⟩
    rw [map_cons, cons_prefix_cons, Piece.text.injEq] at hpre
    exact ⟨hpre.1, others, rest, hothers, hpre.2⟩
  · rintro ⟨rfl, others, rest, hothers, hpre⟩
    exact ⟨_, rest, ⟨others, hothers, rfl⟩, List.cons_prefix_cons.mpr ⟨rfl, hpre⟩⟩

variable {text word : List Char}

lemma startsWith_plain (hc : ¬ escapable c) :
    StartsWith (c :: text) (d :: word) ↔ d = c ∧ StartsWith text word :=
  startsWith_of_addPiece (readQuoted_plain hc text)

lemma startsWith_escape (hc : escapable c) :
    StartsWith ('\\' :: c :: text) (d :: word) ↔ d = c ∧ StartsWith text word :=
  startsWith_of_addPiece (readQuoted_escape hc text)

lemma startsWith_backslash (hc : ¬ escapable c) :
    StartsWith ('\\' :: c :: text) (d :: word) ↔ d = '\\' ∧ StartsWith (c :: text) word :=
  startsWith_of_addPiece (readQuoted_backslash hc text)

lemma not_startsWith_quote : ¬ StartsWith ('"' :: text) (d :: word) := by
  simp [StartsWith]

lemma not_startsWith_expansion (hc : c = '$' ∨ c = '`') : ¬ StartsWith (c :: text) (d :: word) := by
  rintro ⟨pieces, rest, hread, hpre⟩
  have hquote : c ≠ '"' := by rcases hc with rfl | rfl <;> decide
  have hslash : c ≠ '\\' := by rcases hc with rfl | rfl <;> decide
  rw [readQuoted_pieceOf hquote hslash, addPiece_eq_some, pieceOf, if_pos hc] at hread
  obtain ⟨others, -, rfl⟩ := hread
  simp at hpre

/-! ### One argument -/

def escaped (c : Char) : Bool := c == '"' || c == '$'

@[simp] lemma escapeArg_nil : escapeArg [] = [] := rfl

lemma escapeArg_escaped (hc : escaped c) (arg : List Char) :
    escapeArg (c :: arg) = '\\' :: c :: escapeArg arg := by
  simp only [escaped, Bool.or_eq_true, beq_iff_eq] at hc
  rcases hc with rfl | rfl <;> rfl

lemma escapeArg_plain (hc : ¬ escaped c) (arg : List Char) :
    escapeArg (c :: arg) = c :: escapeArg arg := by
  simp only [escaped, Bool.or_eq_true, beq_iff_eq, not_or] at hc
  simp [escapeArg, replaceAll, hc.1, hc.2]

lemma char_cases (c : Char) : escaped c ∨ c = '`' ∨ c = '\\' ∨ ¬ escapable c := by
  by_cases h : escapable c
  · simp only [escapable, contains_cons, contains_nil, Bool.or_false, Bool.or_eq_true,
      beq_iff_eq] at h
    rcases h with rfl | rfl | rfl | rfl <;> decide
  · exact .inr (.inr (.inr h))

lemma escapable_of_escaped (hc : escaped c) : escapable c := by
  simp only [escaped, Bool.or_eq_true, beq_iff_eq] at hc
  rcases hc with rfl | rfl <;> rfl

lemma not_escaped_of_not_escapable (hc : ¬ escapable c) : ¬ escaped c :=
  fun h => hc (escapable_of_escaped h)

/-- The arguments that the quotes keep as they are: without a backtick, and with no backslash at
the end or before a character that a backslash takes the meaning from. -/
def Survives : List Char → Prop
  | [] => True
  | c :: arg =>
    c ≠ '`' ∧ (c = '\\' → ∃ d ∈ arg.head?, ¬ escapable d) ∧ Survives arg

variable {arg : List Char}

lemma survives_escaped (hc : escaped c) : Survives (c :: arg) ↔ Survives arg := by
  simp only [escaped, Bool.or_eq_true, beq_iff_eq] at hc
  rcases hc with rfl | rfl <;> simp [Survives]

lemma survives_plain (hc : ¬ escapable c) : Survives (c :: arg) ↔ Survives arg := by
  have htick : c ≠ '`' := by rintro rfl; exact hc rfl
  have hslash : c ≠ '\\' := by rintro rfl; exact hc rfl
  simp [Survives, htick, hslash]

lemma survives_backslash : Survives ('\\' :: d :: arg) ↔ ¬ escapable d ∧ Survives (d :: arg) := by
  simp [Survives]

/-- An argument that survives is read as it is. -/
lemma readQuoted_of_survives (h : Survives arg) (rest : List Char) :
    readQuoted (escapeArg arg ++ '"' :: rest) = some (arg.map .text, rest) := by
  induction arg with
  | nil => simp
  | cons c arg ih =>
    rcases char_cases c with hc | rfl | rfl | hc
    · rw [escapeArg_escaped hc, cons_append, cons_append,
        readQuoted_escape (escapable_of_escaped hc), ih ((survives_escaped hc).mp h)]
      rfl
    · simp [Survives] at h
    · cases arg with
      | nil => simp [Survives] at h
      | cons d arg =>
        obtain ⟨hd, harg⟩ := survives_backslash.mp h
        have hread := ih harg
        rw [escapeArg_plain (not_escaped_of_not_escapable hd), cons_append] at hread
        rw [escapeArg_plain (by decide), escapeArg_plain (not_escaped_of_not_escapable hd),
          cons_append, cons_append, readQuoted_backslash hd, hread]
        rfl
    · rw [escapeArg_plain (not_escaped_of_not_escapable hc), cons_append, readQuoted_plain hc,
        ih ((survives_plain hc).mp h)]
      rfl

variable {arg rest word : List Char}

/-- A quote or a dollar sign behind an escaped backslash has no backslash left. -/
lemma not_startsWith_backslash_escaped (hc : escaped c) :
    ¬ StartsWith ('\\' :: escapeArg (c :: arg) ++ '"' :: rest) ('\\' :: d :: word) := by
  rw [escapeArg_escaped hc, cons_append, cons_append, startsWith_escape (by decide)]
  rintro ⟨-, h⟩
  simp only [escaped, Bool.or_eq_true, beq_iff_eq] at hc
  rcases hc with rfl | rfl
  · exact not_startsWith_quote h
  · exact not_startsWith_expansion (.inl rfl) h

/-- A backslash is read only from a backslash, and not from the last character. -/
lemma not_startsWith_backslash (hc : c = '\\' → arg = []) :
    ¬ StartsWith (escapeArg (c :: arg) ++ '"' :: rest) ('\\' :: word) := by
  intro h
  rcases char_cases c with hc' | rfl | rfl | hc'
  · rw [escapeArg_escaped hc'] at h
    obtain ⟨rfl, -⟩ := (startsWith_escape (escapable_of_escaped hc')).mp h
    contradiction
  · exact not_startsWith_expansion (.inr rfl) h
  · rw [hc rfl] at h
    exact absurd ((startsWith_escape (by decide)).mp h).1 (by decide)
  · rw [escapeArg_plain (not_escaped_of_not_escapable hc')] at h
    obtain ⟨rfl, -⟩ := (startsWith_plain hc').mp h
    exact hc' rfl

/-- One backslash of the argument among those before it. -/
lemma replicate_append_backslash (k : ℕ) (arg : List Char) :
    List.replicate k '\\' ++ '\\' :: arg = List.replicate (k + 1) '\\' ++ arg := by
  simp [replicate_succ']

lemma not_startsWith_replicate (arg : List Char) (k : ℕ) (rest : List Char) :
    ¬ StartsWith (escapeArg arg ++ '"' :: rest) (List.replicate (k + 1) '\\' ++ arg) := by
  -- A backslash is read from a backslash with an ordinary character behind it, or from two of
  -- them, and the rest then has to give as many more backslashes than it has, or one more still.
  induction arg using List.twoStepInduction generalizing k with
  | nil => exact not_startsWith_quote
  | singleton c => exact not_startsWith_backslash fun _ => rfl
  | cons_cons c d arg ih ihd =>
    intro h
    by_cases hc : c = '\\'
    · subst hc
      rw [replicate_append_backslash, escapeArg_plain (by decide)] at h
      rcases char_cases d with hd | rfl | rfl | hd
      · exact not_startsWith_backslash_escaped hd h
      · exact absurd ((startsWith_escape (by decide)).mp h).1 (by decide)
      · rw [replicate_append_backslash] at h
        exact ih (k + 1) ((startsWith_escape (by decide)).mp h).2
      · refine ihd d k ?_
        rw [escapeArg_plain (not_escaped_of_not_escapable hd)] at h ⊢
        exact ((startsWith_backslash hd).mp h).2
    · exact not_startsWith_backslash (fun heq => absurd heq hc) h

/-- Only an argument that survives is read as it is, or as the start of a word. -/
lemma survives_of_startsWith {arg rest : List Char}
    (h : StartsWith (escapeArg arg ++ '"' :: rest) arg) : Survives arg := by
  induction arg with
  | nil => trivial
  | cons c arg ih =>
    rcases char_cases c with hc | rfl | rfl | hc
    · rw [escapeArg_escaped hc] at h
      exact (survives_escaped hc).mpr (ih ((startsWith_escape (escapable_of_escaped hc)).mp h).2)
    · exact absurd h (not_startsWith_expansion (.inr rfl))
    · rw [escapeArg_plain (by decide)] at h
      cases arg with
      | nil => exact absurd ((startsWith_escape (by decide)).mp h).1 (by decide)
      | cons d arg =>
        rcases char_cases d with hd | rfl | rfl | hd
        · exact absurd h (not_startsWith_backslash_escaped hd)
        · exact absurd ((startsWith_escape (by decide)).mp h).1 (by decide)
        · exact absurd ((startsWith_escape (by decide)).mp h).2 (not_startsWith_replicate arg 0 rest)
        · refine survives_backslash.mpr ⟨hd, ih ?_⟩
          rw [escapeArg_plain (not_escaped_of_not_escapable hd)] at h ⊢
          exact ((startsWith_backslash hd).mp h).2
    · rw [escapeArg_plain (not_escaped_of_not_escapable hc)] at h
      exact (survives_plain hc).mpr (ih ((startsWith_plain hc).mp h).2)

/-! ### All arguments -/

lemma readWords_quote {behind rest : List Char} {word : List Piece}
    (h : readQuoted behind = some (word, ' ' :: rest)) :
    readWords ('"' :: behind) = (readWords rest).map (word :: ·) := by
  rw [readWords, if_neg (by simp)]
  split <;> simp_all

lemma readWords_last {behind : List Char} {word : List Piece}
    (h : readQuoted behind = some (word, [])) : readWords ('"' :: behind) = some [word] := by
  rw [readWords, if_neg (by simp)]
  split <;> simp_all

variable {words : List (List Piece)}

lemma readQuoted_of_readWords {behind : List Char} {word : List Piece}
    (h : readWords ('"' :: behind) = some (word :: words)) :
    ∃ rest, readQuoted behind = some (word, rest) := by
  rw [readWords] at h
  simp only [ne_eq, not_true_eq_false, if_false] at h
  split at h
  · contradiction
  · next hread =>
    simp only [Option.some.injEq, List.cons.injEq] at h
    exact ⟨[], h.1 ▸ hread⟩
  · next hread =>
    split at h
    · simp only [Option.map_eq_some_iff, List.cons.injEq] at h
      obtain ⟨_, -, rfl, -⟩ := h
      exact ⟨_, hread⟩
    · contradiction

lemma additionalArgs_cons_cons (arg next : List Char) (argv : List (List Char)) :
    additionalArgs (arg :: next :: argv) =
      '"' :: (escapeArg arg ++ '"' :: ' ' :: additionalArgs (next :: argv)) := by
  simp [additionalArgs, quoteArg]

lemma additionalArgs_singleton (arg : List Char) :
    additionalArgs [arg] = '"' :: (escapeArg arg ++ ['"']) := by
  simp [additionalArgs, quoteArg]

lemma exists_additionalArgs_cons (arg : List Char) (argv : List (List Char)) :
    ∃ rest, additionalArgs (arg :: argv) = '"' :: (escapeArg arg ++ '"' :: rest) := by
  cases argv with
  | nil => exact ⟨[], additionalArgs_singleton arg⟩
  | cons next argv => exact ⟨_, additionalArgs_cons_cons arg next argv⟩

lemma survives_of_readWords {argv : List (List Char)}
    (h : readWords (additionalArgs (arg :: argv)) = some (arg.map .text :: words)) :
    Survives arg := by
  obtain ⟨rest, hrest⟩ := exists_additionalArgs_cons arg argv
  rw [hrest] at h
  obtain ⟨_, hread⟩ := readQuoted_of_readWords h
  exact survives_of_startsWith ⟨_, _, hread, prefix_rfl⟩

/-- The quoted arguments are read as the arguments exactly when all of them survive. -/
lemma readWords_additionalArgs_iff (argv : List (List Char)) :
    readWords (additionalArgs argv) = some (argv.map (List.map .text)) ↔
      ∀ arg ∈ argv, Survives arg := by
  induction argv with
  | nil => simp [additionalArgs, readWords]
  | cons arg argv ih =>
    constructor
    · intro h
      have harg := survives_of_readWords h
      refine List.forall_mem_cons.mpr ⟨harg, ?_⟩
      cases argv with
      | nil => simp
      | cons next argv =>
        rw [additionalArgs_cons_cons, readWords_quote (readQuoted_of_survives harg _),
          Option.map_eq_some_iff] at h
        obtain ⟨words, hwords, heq⟩ := h
        rw [(List.cons.inj heq).2] at hwords
        exact ih.mp hwords
    · intro h
      obtain ⟨harg, hargv⟩ := List.forall_mem_cons.mp h
      cases argv with
      | nil =>
        rw [additionalArgs_singleton, readWords_last (readQuoted_of_survives harg _)]
        rfl
      | cons next argv =>
        rw [additionalArgs_cons_cons, readWords_quote (readQuoted_of_survives harg _), ih.mpr hargv]
        rfl

/-! ### The text of the script -/

lemma exists_additionalArgs_concat (arg : List Char) (argv : List (List Char)) :
    ∃ front, additionalArgs (arg :: argv) = front ++ ['"'] := by
  induction argv generalizing arg with
  | nil => exact ⟨'"' :: escapeArg arg, additionalArgs_singleton arg⟩
  | cons next argv ih =>
    obtain ⟨front, hfront⟩ := ih next
    rw [additionalArgs_cons_cons, hfront]
    exact ⟨'"' :: (escapeArg arg ++ '"' :: ' ' :: front), by simp⟩

lemma trimStart_append_quote (text rest : List Char) :
    trimStart (text ++ '"' :: rest) = trimStart text ++ '"' :: rest := by
  rw [trimStart, dropWhile_append]
  split
  · next hempty =>
    rw [trimStart, List.isEmpty_iff.mp hempty]
    rfl
  · rfl

/-- With arguments, the script and the blank are kept but for the whitespace before them. -/
lemma getScriptWithArgs_cons (script arg : List Char) (argv : List (List Char)) :
    getScriptWithArgs script (arg :: argv) =
      trimStart (script ++ [' ']) ++ additionalArgs (arg :: argv) := by
  obtain ⟨rest, hrest⟩ := exists_additionalArgs_cons arg argv
  obtain ⟨front, hfront⟩ := exists_additionalArgs_concat arg argv
  rw [getScriptWithArgs, trim, append_cons, hrest, trimStart_append_quote, ← hrest, hfront,
    ← append_assoc]
  exact rdropWhile_concat_neg _ _ _ (by decide)

lemma appendedArgs_eq (script : List Char) (argv : List (List Char)) :
    appendedArgs script argv = additionalArgs argv := by
  cases argv with
  | nil => exact drop_eq_nil_of_le (List.rdropWhile_prefix _ _).length_le
  | cons arg argv => rw [appendedArgs, getScriptWithArgs_cons, drop_left]

/-- The shell gets the arguments back from what is put behind the script, in order and with no
expansion, exactly when no argument has a backtick, or a backslash that is its last character or
stands before a quote, a dollar sign or another backslash. -/
theorem readWords_appendedArgs_iff (script : List Char) (argv : List (List Char)) :
    readWords (appendedArgs script argv) = some (argv.map (List.map .text)) ↔
      ∀ arg ∈ argv, Survives arg := by
  rw [appendedArgs_eq, readWords_additionalArgs_iff]

/-- A backslash at the end of an argument takes the closing quote with it, two are read as one, one
before a quote ends the word there, and a backtick starts a substitution. -/
theorem readWords_appendedArgs_ne : readWords (appendedArgs "cat".toList ["C:\\".toList]) = none ∧
    readWords (appendedArgs "cat".toList ["\\\\".toList]) = some [[.text '\\']] ∧
    readWords (appendedArgs "cat".toList ["\\\"".toList]) = none ∧
    readWords (appendedArgs "cat".toList ["`x".toList]) = some [[.expansion '`', .text 'x']] := by
  simp [appendedArgs_eq, additionalArgs, quoteArg, escapeArg, replaceAll, readWords, readQuoted,
    escapable, pieceOf, addPiece]

end Deno.Task
