import Deno.Lsp.Text

/-!
# Documents under change

A document keeps its text and the line index of the text. A notification of the editor brings a
list of changes, each meant for the text that the changes before it produce. While they are
applied the line index is only renewed if a change starts at or below the line where the last one
started; for the ends of the ranges this is not enough.
-/

namespace Deno

open Core List
open String (utf8Len)

/-! ### Changes and documents -/

/-- `TextDocumentContentChangeEvent`: new text for a range, or for the whole document. -/
structure ContentChange where
  range : Option LspRange
  text : List Char
  deriving DecidableEq

/-- What of the text a line index is good for. -/
inductive IndexValid where
  | all
  | upTo (line : ℕ)
  deriving DecidableEq

def IndexValid.covers (self : IndexValid) (line : ℕ) : Bool :=
  match self with
  | .upTo last => line < last
  | .all => true

/-- `String::replace_range`: both ends have to lie between characters. -/
def replaceRange (content : List Char) (start stop : ℕ) (text : List Char) :
    Except AnyError (List Char) :=
  match splitBytes start content, splitBytes stop content with
  | some (before, _), some (_, after) => .ok (before ++ text ++ after)
  | _, _ => .error (.panic "assertion failed: self.is_char_boundary(n)")

structure ChangeState where
  content : List Char
  lineIndex : LineIndex
  indexValid : IndexValid

def ChangeState.apply (st : ChangeState) (change : ContentChange) : Except AnyError ChangeState :=
  match change.range with
  | some range => do
    let lineIndex :=
      if st.indexValid.covers range.start.line then st.lineIndex else LineIndex.new st.content
    let (start, stop) ← lineIndex.getTextRange range
    let content ← replaceRange st.content start stop change.text
    return ⟨content, lineIndex, .upTo range.start.line⟩
  | none => return { st with content := change.text, indexValid := .upTo 0 }

variable {change : ContentChange} {st st' : ChangeState}

lemma indexValid_of_apply (h : st.apply change = .ok st') : st'.indexValid ≠ .all := by
  obtain ⟨range, text⟩ := change
  cases range with
  | none =>
    cases h
    exact nofun
  | some range =>
    obtain ⟨_, _, h⟩ := bind_eq_ok.mp h
    obtain ⟨_, _, h⟩ := bind_eq_ok.mp h
    cases h
    exact nofun

variable {changes : List ContentChange}

lemma eq_of_indexValid_all
    (h : changes.foldlM ChangeState.apply st = .ok st') (hall : st'.indexValid = .all) :
    st' = st := by
  induction changes generalizing st with
  | nil => exact (Except.ok.inj h).symm
  | cons change changes ih =>
    obtain ⟨st₁, happly, hrest⟩ := bind_eq_ok.mp h
    obtain rfl := ih hrest
    exact absurd hall (indexValid_of_apply happly)

structure Document where
  text : List Char
  lineIndex : LineIndex
  maybeLspVersion : Option ℤ
  indexed : lineIndex = LineIndex.new text
  deriving DecidableEq

/-- `Document::open`. -/
def Document.ofOpen (version : ℤ) (content : List Char) : Document :=
  ⟨content, LineIndex.new content, some version, rfl⟩

def Document.withChange (self : Document) (version : ℤ) (changes : List ContentChange) :
    Except AnyError Document :=
  match h : changes.foldlM ChangeState.apply ⟨self.text, self.lineIndex, .all⟩ with
  | .error e => .error e
  | .ok st =>
    .ok {
      text := st.content
      lineIndex := if st.indexValid = .all then st.lineIndex else LineIndex.new st.content
      maybeLspVersion := some version
      indexed := by
        split_ifs with hall
        · rw [eq_of_indexValid_all h hall]
          exact self.indexed
        · rfl }

/-! ### What the changes mean -/

/-- The text after a change: what lies between the two positions is replaced. A change whose
positions are not positions of the text, or not in order, has no meaning. -/
def applyChange (text : List Char) (change : ContentChange) : Option (List Char) :=
  match change.range with
  | none => some change.text
  | some range => do
    let (before, _) ← splitAtPosition range.start text
    let (_, after) ← splitAtPosition range.stop text
    if range.start.Precedes range.stop then some (before ++ change.text ++ after) else none

def applyChanges (text : List Char) (changes : List ContentChange) : Option (List Char) :=
  changes.foldlM applyChange text

lemma applyChange_range {text text' new : List Char} {range : LspRange} :
    applyChange text ⟨some range, new⟩ = some text' ↔
      ∃ a b c, text = a ++ b ++ c ∧ positionAfter a = range.start ∧
        positionAfter (a ++ b) = range.stop ∧ text' = a ++ new ++ c := by
  constructor
  · intro h
    obtain ⟨⟨a, b'⟩, ha, h⟩ := Option.bind_eq_some_iff.mp h
    obtain ⟨⟨ab, c⟩, hab, h⟩ := Option.bind_eq_some_iff.mp h
    obtain ⟨htext, hstart⟩ := splitAtPosition_eq_some.mp ha
    obtain ⟨htext', hstop⟩ := splitAtPosition_eq_some.mp hab
    split_ifs at h with hle
    cases h
    rw [← hstart, ← hstop] at hle
    obtain ⟨b, rfl⟩ := Position.exists_append_of_precedes (htext.symm.trans htext') hle
    exact ⟨a, b, c, htext', hstart, hstop, rfl⟩
  · rintro ⟨a, b, c, rfl, hstart, hstop, rfl⟩
    have hle : range.start.Precedes range.stop := by
      rw [← hstart, ← hstop, positionAfter, positionAfter, Position.after_append]
      exact Position.precedes_after _ b
    have ha : splitAtPosition range.start (a ++ b ++ c) = some (a, b ++ c) :=
      splitAtPosition_eq_some.mpr ⟨append_assoc a b c, hstart⟩
    have hab : splitAtPosition range.stop (a ++ b ++ c) = some (a ++ b, c) :=
      splitAtPosition_eq_some.mpr ⟨rfl, hstop⟩
    simp only [applyChange, ha, hab, Option.bind_eq_bind, Option.bind_some, if_pos hle]

/-! ### The index that is held -/

/-- The text whose index is used for a change: the one held, unless it is renewed. -/
def indexedText (held : List Char) (valid : IndexValid) (content : List Char)
    (range : LspRange) : List Char :=
  if valid.covers range.start.line then held else content

/-- The index of `held` is good for `content` as far as it is said to be: up to some line both
texts are the same. -/
def Agree (held content : List Char) : IndexValid → Prop
  | .all => held = content
  | .upTo line =>
    ∃ shared, shared <+: held ∧ shared <+: content ∧ line ≤ (positionAfter shared).line

variable {held content : List Char}

/-- What lies in front of a position in a covered line is the same in both texts. -/
lemma Agree.covered {valid : IndexValid} (h : Agree held content valid)
    {a b : List Char} (hcontent : content = a ++ b)
    (hcovers : valid.covers (positionAfter a).line = true) : a <+: held := by
  cases valid with
  | all =>
    obtain rfl : held = content := h
    exact ⟨b, hcontent.symm⟩
  | upTo line =>
    obtain ⟨shared, hheld, ⟨rest, hrest⟩, hline⟩ := h
    have hlt : (positionAfter a).line < (positionAfter shared).line := by
      have : (positionAfter a).line < line := by simpa [IndexValid.covers] using hcovers
      omega
    obtain ⟨m, hm⟩ := Position.exists_append_of_precedes (hcontent.symm.trans hrest.symm)
      (Or.inl hlt : (positionAfter a).Precedes (positionAfter shared))
    exact (prefix_append a m).trans (hm ▸ hheld)

lemma agree_of_change {held content a b new : List Char} {range : LspRange}
    (hheld : a <+: held) (hcontent : content = a ++ new ++ b)
    (hstart : positionAfter a = range.start) :
    Agree held content (.upTo range.start.line) := by
  refine ⟨a, hheld, ?_, hstart ▸ le_rfl⟩
  rw [hcontent, append_assoc]
  exact prefix_append a _

/-! ### One change -/

/-- The end of a range is at the same offset in the text whose index is used as in the text that
is changed. -/
def EndHeld (indexed content : List Char) (range : LspRange) : Prop :=
  (LineIndex.new indexed).offset range.stop = (LineIndex.new content).offset range.stop

instance (indexed content : List Char) (range : LspRange) :
    Decidable (EndHeld indexed content range) := inferInstanceAs (Decidable (_ = _))

variable {st : ChangeState}

section

variable {held content a b c new : List Char} {valid : IndexValid} {range : LspRange}
  (hagree : Agree held content valid) (hcontent : content = a ++ b ++ c)
  (hstart : positionAfter a = range.start) (hstop : positionAfter (a ++ b) = range.stop)

include hagree hcontent hstart in
/-- Whether the index is renewed or not, it is good for the start of the range. -/
lemma prefix_indexedText : a <+: indexedText held valid content range := by
  unfold indexedText
  rw [append_assoc] at hcontent
  split_ifs with hcovers
  · exact hagree.covered hcontent (hstart ▸ hcovers)
  · exact ⟨b ++ c, hcontent.symm⟩

include hagree hcontent hstart in
lemma offset_start : (LineIndex.new (indexedText held valid content range)).offset range.start =
    .ok (utf8Len a) := by
  obtain ⟨rest, hrest⟩ := prefix_indexedText hagree hcontent hstart
  rw [← hrest, ← hstart]
  exact LineIndex.offset_positionAfter a rest

include hcontent hstop in
lemma offset_stop : (LineIndex.new content).offset range.stop = .ok (utf8Len (a ++ b)) := by
  rw [hcontent, ← hstop]
  exact LineIndex.offset_positionAfter (a ++ b) c

include hagree hcontent hstart in
/-- The text after a change depends on the offset that the index gives for the end. -/
lemma apply_eq : (⟨content, LineIndex.new held, valid⟩ : ChangeState).apply ⟨some range, new⟩ = (do
      let stop ← (LineIndex.new (indexedText held valid content range)).offset range.stop
      if utf8Len a ≤ stop then
        match splitBytes stop content with
        | some (_, after) => return ⟨a ++ new ++ after,
            LineIndex.new (indexedText held valid content range), .upTo range.start.line⟩
        | none => .error (.panic "assertion failed: self.is_char_boundary(n)")
      else .error (.panic "assertion failed: start <= end")) := by
  have hindex : (if valid.covers range.start.line then LineIndex.new held
      else LineIndex.new content) = LineIndex.new (indexedText held valid content range) := by
    unfold indexedText
    split_ifs <;> rfl
  have hsplit : splitBytes (utf8Len a) content = some (a, b ++ c) := by
    rw [hcontent, append_assoc, splitBytes_append]
  simp only [ChangeState.apply, hindex, LineIndex.getTextRange, offset_start hagree hcontent hstart]
  cases (LineIndex.new (indexedText held valid content range)).offset range.stop with
  | error e => rfl
  | ok stop =>
    by_cases hle : utf8Len a ≤ stop
    · cases hs : splitBytes stop content <;>
        simp [bind, Except.bind, pure, Except.pure, replaceRange, hle, hsplit, hs]
    · simp [bind, Except.bind, hle]

include hagree hcontent hstart hstop in
lemma apply_of_endHeld (hend : EndHeld (indexedText held valid content range) content range) :
    (⟨content, LineIndex.new held, valid⟩ : ChangeState).apply ⟨some range, new⟩ =
      .ok ⟨a ++ new ++ c, LineIndex.new (indexedText held valid content range),
        .upTo range.start.line⟩ := by
  have hsplit : splitBytes (utf8Len (a ++ b)) content = some (a ++ b, c) := by
    rw [hcontent, splitBytes_append]
  have hle : utf8Len a ≤ utf8Len (a ++ b) := by
    rw [String.utf8Len_append]
    exact Nat.le_add_right _ _
  rw [EndHeld, offset_stop hcontent hstop] at hend
  rw [apply_eq hagree hcontent hstart, hend]
  change (if utf8Len a ≤ utf8Len (a ++ b) then _ else _) = _
  rw [if_pos hle, hsplit]
  rfl

include hagree hcontent hstart hstop in
/-- Otherwise the text is not the one after the change. -/
lemma endHeld_of_apply
    (h : (⟨content, LineIndex.new held, valid⟩ : ChangeState).apply ⟨some range, new⟩ = .ok st)
    (htext : st.content = a ++ new ++ c) :
    EndHeld (indexedText held valid content range) content range := by
  rw [apply_eq hagree hcontent hstart] at h
  rw [EndHeld, offset_stop hcontent hstop]
  cases hoff : (LineIndex.new (indexedText held valid content range)).offset range.stop with
  | error e =>
    rw [hoff] at h
    cases h
  | ok stop =>
    rw [hoff] at h
    change (if utf8Len a ≤ stop then _ else _) = _ at h
    split_ifs at h
    · cases hs : splitBytes stop content with
      | none =>
        rw [hs] at h
        cases h
      | some p =>
        rw [hs] at h
        cases h
        -- what lies behind the end is the same, and so is what lies in front of it
        obtain ⟨hp, hlen⟩ := eq_of_splitBytes hs
        obtain rfl : p.2 = c := append_cancel_left htext
        rw [hcontent] at hp
        rw [← hlen, ← append_cancel_right hp]

end

/-! ### All changes -/

/-- The ends of all ranges are held, the index of `held` being the one at hand. -/
def EndsHeld : List ContentChange → List Char → IndexValid → List Char → Prop
  | [], _, _, _ => True
  | ⟨none, text⟩ :: changes, held, _, _ => EndsHeld changes held (.upTo 0) text
  | ⟨some range, text⟩ :: changes, held, valid, content =>
    EndHeld (indexedText held valid content range) content range ∧
      ∀ content' ∈ applyChange content ⟨some range, text⟩,
        EndsHeld changes (indexedText held valid content range) (.upTo range.start.line) content'

instance decidableEndsHeld : ∀ (changes : List ContentChange) (held : List Char)
    (valid : IndexValid) (content : List Char), Decidable (EndsHeld changes held valid content)
  | [], _, _, _ => isTrue trivial
  | ⟨none, text⟩ :: changes, held, _, _ => decidableEndsHeld changes held (.upTo 0) text
  | ⟨some range, text⟩ :: changes, held, valid, content =>
    haveI := fun content' => decidableEndsHeld changes (indexedText held valid content range)
      (.upTo range.start.line) content'
    inferInstanceAs (Decidable (EndHeld (indexedText held valid content range) content range ∧
      ∀ content' ∈ applyChange content ⟨some range, text⟩, EndsHeld changes
        (indexedText held valid content range) (.upTo range.start.line) content'))

/-- After each of the changes the loop has the text the editor has. -/
def ChangeState.InStep (st : ChangeState) (changes : List ContentChange) : Prop :=
  ∀ n text, applyChanges st.content (changes.take n) = some text →
    ∃ st', (changes.take n).foldlM ChangeState.apply st = .ok st' ∧ st'.content = text

/-- After each of the changes the document has the text the editor has, and the index of it. -/
def Document.InStep (doc : Document) (version : ℤ) (changes : List ContentChange) : Prop :=
  ∀ n text, applyChanges doc.text (changes.take n) = some text →
    ∃ doc', doc.withChange version (changes.take n) = .ok doc' ∧ doc'.text = text ∧
      doc'.lineIndex = LineIndex.new doc'.text

lemma applyChanges_cons (text : List Char) (change : ContentChange)
    (changes : List ContentChange) : applyChanges text (change :: changes) =
      (applyChange text change).bind fun text' => applyChanges text' changes :=
  foldlM_cons

lemma ChangeState.inStep_nil (st : ChangeState) : st.InStep [] := by
  intro n text h
  rw [take_nil] at h ⊢
  exact ⟨st, rfl, Option.some.inj h⟩

lemma ChangeState.inStep_cons : st.InStep (change :: changes) ↔
      ∀ content', applyChange st.content change = some content' →
        ∃ st', st.apply change = .ok st' ∧ st'.content = content' ∧ st'.InStep changes := by
  constructor
  · intro h content' hchange
    obtain ⟨st', hst', hcontent⟩ := h 1 content' (by
      rw [take_succ_cons, applyChanges_cons, hchange]
      rfl)
    obtain ⟨_, happly, heq⟩ := bind_eq_ok.mp hst'
    cases heq
    refine ⟨st', happly, hcontent, fun n text htext => ?_⟩
    obtain ⟨st'', hst'', hcontent'⟩ := h (n + 1) text (by
      rw [take_succ_cons, applyChanges_cons, hchange, ← hcontent]
      exact htext)
    rw [take_succ_cons, foldlM_cons, happly] at hst''
    exact ⟨st'', hst'', hcontent'⟩
  · intro h n text htext
    cases n with
    | zero =>
      exact ⟨st, rfl, Option.some.inj htext⟩
    | succ n =>
      obtain ⟨content', hchange, hrest⟩ := Option.bind_eq_some_iff.mp htext
      obtain ⟨st', happly, rfl, hstep⟩ := h content' hchange
      obtain ⟨st'', hst'', hcontent⟩ := hstep n text hrest
      refine ⟨st'', ?_, hcontent⟩
      rw [take_succ_cons, foldlM_cons, happly]
      exact hst''

/-- The loop stays in step exactly if the ends of all ranges are held. -/
theorem inStep_iff_endsHeld {valid : IndexValid} (hagree : Agree held content valid)
    (hmeaning : (applyChanges content changes).isSome) :
    (⟨content, LineIndex.new held, valid⟩ : ChangeState).InStep changes ↔
      EndsHeld changes held valid content := by
  induction changes generalizing held content valid with
  | nil => exact ⟨fun _ => trivial, fun _ => ChangeState.inStep_nil _⟩
  | cons change changes ih =>
    obtain ⟨final, hfinal⟩ := Option.isSome_iff_exists.mp hmeaning
    rw [applyChanges_cons] at hfinal
    obtain ⟨content', hchange, hrest⟩ := Option.bind_eq_some_iff.mp hfinal
    have hmeaning' : (applyChanges content' changes).isSome := by rw [hrest]; rfl
    rw [ChangeState.inStep_cons]
    obtain ⟨range, text⟩ := change
    cases range with
    | none =>
      obtain rfl : text = content' := Option.some.inj hchange
      rw [EndsHeld, ← ih (show Agree held text (.upTo 0) from
        ⟨[], nil_prefix, nil_prefix, Nat.zero_le _⟩) hmeaning']
      constructor
      · intro h
        obtain ⟨st', happly, _, hstep⟩ := h text rfl
        cases happly
        exact hstep
      · intro h content'' hchange'
        obtain rfl : text = content'' := Option.some.inj hchange'
        exact ⟨_, rfl, rfl, h⟩
    | some range =>
      obtain ⟨a, b, c, hcontent, hstart, hstop, rfl⟩ := applyChange_range.mp hchange
      have hagree' : Agree (indexedText held valid content range) (a ++ text ++ c)
          (.upTo range.start.line) :=
        agree_of_change (prefix_indexedText hagree hcontent hstart) rfl hstart
      have hih := ih hagree' hmeaning'
      rw [EndsHeld, hchange]
      simp only [Option.mem_some_iff, forall_eq', Option.some.injEq]
      rw [← hih]
      constructor
      · rintro ⟨st', happly, htext, hstep⟩
        have hend := endHeld_of_apply hagree hcontent hstart hstop happly htext
        rw [apply_of_endHeld hagree hcontent hstart hstop hend] at happly
        cases happly
        exact ⟨hend, hstep⟩
      · rintro ⟨hend, hstep⟩
        exact ⟨_, apply_of_endHeld hagree hcontent hstart hstop hend, rfl, hstep⟩

/-! ### The document -/

lemma withChange_eq_ok {doc doc' : Document} {version : ℤ}
    (h : doc.withChange version changes = .ok doc') :
    ∃ st, changes.foldlM ChangeState.apply ⟨doc.text, LineIndex.new doc.text, .all⟩ = .ok st ∧
      st.content = doc'.text := by
  rw [← doc.indexed]
  unfold Document.withChange at h
  split at h
  · cases h
  · rename_i st hst
    cases h
    exact ⟨st, hst, rfl⟩

lemma exists_withChange {doc : Document}
    (h : changes.foldlM ChangeState.apply ⟨doc.text, LineIndex.new doc.text, .all⟩ = .ok st)
    (version : ℤ) : ∃ doc', doc.withChange version changes = .ok doc' ∧ doc'.text = st.content := by
  rw [← doc.indexed] at h
  unfold Document.withChange
  split
  · rename_i e he
    rw [h] at he
    cases he
  · rename_i st' hst'
    rw [h] at hst'
    cases hst'
    exact ⟨_, rfl, rfl⟩

/-- A document stays in step with the editor, change after change, exactly if every range ends,
in the text whose line index is at hand, at the offset at which it ends in the current text. -/
theorem withChange_inStep_iff (doc : Document) (version : ℤ) (changes : List ContentChange)
    (hmeaning : (applyChanges doc.text changes).isSome) :
    doc.InStep version changes ↔ EndsHeld changes doc.text .all doc.text := by
  have hagree : Agree doc.text doc.text .all := rfl
  rw [← inStep_iff_endsHeld hagree hmeaning]
  constructor
  · intro h n text htext
    obtain ⟨doc', hdoc', rfl, _⟩ := h n text htext
    exact withChange_eq_ok hdoc'
  · intro h n text htext
    obtain ⟨st, hst, rfl⟩ := h n text htext
    obtain ⟨doc', hdoc', htext'⟩ := exists_withChange hst version
    exact ⟨doc', hdoc', htext', doc'.indexed⟩

/-- Two changes from the bottom up, beside characters outside ASCII. -/
theorem withChange_inStep_upwards : (Document.ofOpen 1 ['a', '\n', 'é', 'b', '\n', 'c']).InStep 2
      [⟨some ⟨⟨1, 1⟩, ⟨2, 1⟩⟩, ['x', '\n', 'y']⟩, ⟨some ⟨⟨0, 0⟩, ⟨0, 1⟩⟩, ['z']⟩] :=
  (withChange_inStep_iff _ 2 _ (by decide)).mpr (by decide)

/-- An insertion in the second line, and then a change from the first line to the third: the end
is looked up in the text from before the insertion. -/
theorem withChange_loses_step : let changes : List ContentChange :=
      [⟨some ⟨⟨1, 0⟩, ⟨1, 0⟩⟩, ['x', 'x', '\n']⟩, ⟨some ⟨⟨0, 0⟩, ⟨2, 1⟩⟩, []⟩]
    applyChanges ['a', '\n', 'b', '\n', 'c', '\n'] changes = some ['\n', 'c', '\n'] ∧
      ((Document.ofOpen 1 ['a', '\n', 'b', '\n', 'c', '\n']).withChange 2 changes).map
        Document.text = .ok ['b', '\n', 'c', '\n'] := by
  decide

end Deno
