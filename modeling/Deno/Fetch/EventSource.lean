import Deno.Core.JsString

/-!
# Event sources

The text of an event stream arrives in chunks. It is cut into lines, each ended by a carriage
return and a line feed or by one of the two, and the lines are read as fields of events. The
events do not depend on where the chunks were cut.
-/

namespace Deno

open Core List

def lf : UInt16 := unit '\n'

def cr : UInt16 := unit '\r'

/-! ### Cutting a text into lines -/

structure TextLineStream where
  allowCR : Bool
  buf : JsString

variable {chunk : JsString} {i : ℕ}

namespace TextLineStream

/-- The index of the first carriage return of a chunk, if it ends a line by itself. The last unit
of a chunk is kept back: a line feed may follow. -/
def crLineIndex (chunk : JsString) : Option ℕ :=
  match indexOf cr chunk with
  | none => none
  | some crIndex =>
    if crIndex ≠ chunk.length - 1 ∧ ∀ lfIndex ∈ indexOf lf chunk, lfIndex - 1 > crIndex then
      some crIndex
    else none

/-- A carriage return that ends a line by itself: no unit before it ends one, and there is a unit
behind it, which is not a line feed. -/
lemma eq_append_of_crLineIndex (h : crLineIndex chunk = some i) :
    ∃ before after, chunk = before ++ cr :: after ∧ before.length = i ∧ cr ∉ before ∧
      lf ∉ before ∧ after ≠ [] ∧ after.head? ≠ some lf := by
  unfold crLineIndex at h
  cases hcr : indexOf cr chunk with
  | none => simp [hcr] at h
  | some crIndex =>
    simp only [hcr] at h
    split_ifs at h with hline
    obtain ⟨hlast, hlf⟩ := hline
    cases h
    obtain ⟨before, after, rfl, hbefore, rfl⟩ := eq_append_of_indexOf hcr
    -- every line feed comes later than the unit behind the carriage return
    have hlate : ∀ a b, before ++ cr :: after = a ++ lf :: b → lf ∉ a →
        before.length + 1 < a.length := by
      intro a b heq ha
      rw [heq] at hlf
      have := hlf _ (indexOf_append ha)
      omega
    have hfree : lf ∉ before := by
      intro hmem
      obtain ⟨a, b, rfl, ha⟩ := eq_append_cons_of_mem hmem
      have := hlate a (b ++ cr :: after) (by simp) ha
      simp at this
      omega
    refine ⟨before, after, rfl, rfl, hbefore, hfree, ?_, ?_⟩
    · rintro rfl
      simp at hlast
    · intro hhead
      cases after with
      | nil => cases hhead
      | cons c cs =>
        obtain rfl : c = lf := by simpa using hhead
        have hnew : lf ∉ before ++ [cr] := by
          simp only [mem_append, mem_singleton, not_or]
          exact ⟨hfree, by decide⟩
        have := hlate (before ++ [cr]) cs (by simp) hnew
        simp at this

/-- The loop of `#handle`: the lines that are enqueued, and what is left of the chunk. -/
def handleLoop (allowCR : Bool) (chunk : JsString) : List JsString × JsString :=
  match _hcr : if allowCR then crLineIndex chunk else none with
  | some crIndex =>
    let (lines, rest) := handleLoop allowCR (chunk.drop (crIndex + 1))
    (chunk.take crIndex :: lines, rest)
  | none =>
    match _hlf : indexOf lf chunk with
    | some lfIndex =>
      let crOrLfIndex :=
        if lfIndex ≠ 0 ∧ chunk[lfIndex - 1]? = some cr then lfIndex - 1 else lfIndex
      let (lines, rest) := handleLoop allowCR (chunk.drop (lfIndex + 1))
      (chunk.take crOrLfIndex :: lines, rest)
    | none => ([], chunk)
termination_by chunk.length
decreasing_by
  · split_ifs at _hcr
    obtain ⟨before, after, rfl, rfl, -⟩ := eq_append_of_crLineIndex _hcr
    simp
    omega
  · obtain ⟨before, after, rfl, -, rfl⟩ := eq_append_of_indexOf _hlf
    simp
    omega

variable (self : TextLineStream)

def handle (chunk : JsString) : List JsString × TextLineStream :=
  let (lines, rest) := handleLoop self.allowCR (self.buf ++ chunk)
  (lines, { self with buf := rest })

def flush : List JsString :=
  if self.buf.length > 0 then
    if self.allowCR ∧ self.buf.getLast? = some cr then [self.buf.dropLast] else [self.buf]
  else []

/-- Everything that is enqueued while the chunks go through the stream, and at its end. -/
def pipe (self : TextLineStream) : List JsString → List JsString
  | [] => self.flush
  | chunk :: chunks =>
    let (lines, self) := self.handle chunk
    lines ++ self.pipe chunks

end TextLineStream

/-! ### Reading the lines -/

inductive ReadyState where
  | connecting
  | opened
  | closed
  deriving DecidableEq

structure MessageEvent where
  type : JsString
  data : JsString
  origin : JsString
  lastEventId : JsString
  deriving DecidableEq

/-- An event source, the events it has dispatched among it. Its times are of any type. -/
structure EventSource (τ : Type) where
  reconnectionTime : τ
  lastEventId : JsString
  readyState : ReadyState
  dispatched : List MessageEvent

structure EventBuffers where
  data : JsString
  eventType : JsString
  lastEventId : JsString

namespace EventSource

variable {τ : Type}

/-- An empty line: the event is dispatched, if there is data for it. -/
def dispatch (url : JsString) (self : EventSource τ) (buffers : EventBuffers) :
    EventSource τ × EventBuffers :=
  let self := { self with lastEventId := buffers.lastEventId }
  if buffers.data = [] then (self, { buffers with eventType := [] })
  else
    let data := if buffers.data.getLast? = some lf then buffers.data.dropLast else buffers.data
    let event : MessageEvent :=
      { type := if buffers.eventType = [] then js "message" else buffers.eventType
        data := data
        origin := url
        lastEventId := self.lastEventId }
    let buffers := { buffers with data := [], eventType := [] }
    if self.readyState ≠ .closed then
      ({ self with dispatched := self.dispatched ++ [event] }, buffers)
    else (self, buffers)

def splitField (line : JsString) : JsString × JsString :=
  match indexOf (unit ':') line with
  | none => (line, [])
  | some colonIndex =>
    let value := line.drop (colonIndex + 1)
    (line.take colonIndex, if value.head? = some (unit ' ') then value.drop 1 else value)

/-- The body of the loop of `#loop`. A finite number is what `number` reads from a text. -/
def processLine (number : JsString → Option τ) (url : JsString) (self : EventSource τ)
    (buffers : EventBuffers) (line : JsString) : EventSource τ × EventBuffers :=
  if line = [] then self.dispatch url buffers
  else if line.head? = some (unit ':') then (self, buffers)
  else
    let (field, value) := splitField line
    if field = js "event" then (self, { buffers with eventType := value })
    else if field = js "data" then (self, { buffers with data := buffers.data ++ value ++ [lf] })
    else if field = js "id" then
      if (0 : UInt16) ∈ value then (self, buffers)
      else (self, { buffers with lastEventId := value })
    else if field = js "retry" then
      match number value with
      | some reconnectionTime => ({ self with reconnectionTime := reconnectionTime }, buffers)
      | none => (self, buffers)
    else (self, buffers)

def processLines (number : JsString → Option τ) (url : JsString) (self : EventSource τ)
    (buffers : EventBuffers) : List JsString → EventSource τ × EventBuffers
  | [] => (self, buffers)
  | line :: lines =>
    let (self, buffers) := self.processLine number url buffers line
    self.processLines number url buffers lines

/-- One connection, from its opening to the end of its chunks. -/
def loop (number : JsString → Option τ) (url : JsString) (self : EventSource τ)
    (chunks : List JsString) : EventSource τ :=
  let self := { self with readyState := .opened }
  (self.processLines number url ⟨[], [], self.lastEventId⟩
    (TextLineStream.pipe ⟨true, []⟩ chunks)).1

end EventSource

/-! ### The grammar of event streams -/

/-- The text with every end of a line replaced by a line feed. -/
def normalizeNewlines : JsString → JsString
  | [] => []
  | [c] => [if c = cr then lf else c]
  | c :: d :: cs =>
    if c = cr ∧ d = lf then lf :: normalizeNewlines cs
    else (if c = cr then lf else c) :: normalizeNewlines (d :: cs)

/-- The parts of a text around the ends of its lines. All but the last are lines that ended. -/
def splitLines (text : JsString) : List JsString := (normalizeNewlines text).splitOn lf

/-- The name and the value of a field; a line that starts with a colon is a comment. -/
def fieldOf (line : JsString) : Option (JsString × JsString) :=
  if line.head? = some (unit ':') then none
  else
    let value := (line.dropWhile (· ≠ unit ':')).drop 1
    some (line.takeWhile (· ≠ unit ':'),
      if value.head? = some (unit ' ') then value.drop 1 else value)

def fieldValues (name : JsString) (block : List JsString) : List JsString :=
  ((block.filterMap fieldOf).filter (·.1 = name)).map (·.2)

/-- The last identifier of a block, the one before if there is none. -/
def blockId (lastEventId : JsString) (block : List JsString) : JsString :=
  ((fieldValues (js "id") block).filter ((0 : UInt16) ∉ ·)).getLastD lastEventId

def blockEvent (url lastEventId : JsString) (block : List JsString) : Option MessageEvent :=
  if fieldValues (js "data") block = [] then none
  else
    let type := (fieldValues (js "event") block).getLastD []
    some
      { type := if type = [] then js "message" else type
        data := [lf].intercalate (fieldValues (js "data") block)
        origin := url
        lastEventId := blockId lastEventId block }

def blockEvents (url : JsString) : JsString → List (List JsString) → List MessageEvent
  | _, [] => []
  | lastEventId, block :: blocks =>
    (blockEvent url lastEventId block).toList ++ blockEvents url (blockId lastEventId block) blocks

/-- The events of a text. Blocks are ended by an empty line; what is behind the last empty line
is discarded. -/
def eventsOfText (url lastEventId text : JsString) : List MessageEvent :=
  blockEvents url lastEventId ((splitLines text).dropLast.splitOn []).dropLast

variable {a b : JsString}

lemma normalizeNewlines_cons {c : UInt16} (h : c ≠ cr) (b : JsString) :
    normalizeNewlines (c :: b) = c :: normalizeNewlines b := by
  cases b with
  | nil | cons d cs => simp [normalizeNewlines, h]

lemma normalizeNewlines_append (h : cr ∉ a) (b : JsString) :
    normalizeNewlines (a ++ b) = a ++ normalizeNewlines b := by
  induction a with
  | nil => rfl
  | cons c cs ih =>
    simp only [mem_cons, not_or] at h
    rw [cons_append, normalizeNewlines_cons (Ne.symm h.1), ih h.2, cons_append]

lemma normalizeNewlines_cr (h : b.head? ≠ some lf) :
    normalizeNewlines (cr :: b) = lf :: normalizeNewlines b := by
  cases b with
  | nil => simp [normalizeNewlines]
  | cons d cs => simp_all [normalizeNewlines]

lemma splitLines_of_notMem (hcr : cr ∉ a) (hlf : lf ∉ a) : splitLines a = [a] := by
  have := normalizeNewlines_append hcr []
  simp only [append_nil, normalizeNewlines] at this
  rw [splitLines, this, splitOn_eq_singleton hlf]

/-- What is normalized to a line feed ends a line. -/
lemma splitLines_newline {b' : JsString} (h : normalizeNewlines b' = lf :: normalizeNewlines b)
    (hcr : cr ∉ a) (hlf : lf ∉ a) : splitLines (a ++ b') = a :: splitLines b := by
  rw [splitLines, normalizeNewlines_append hcr, h, splitOn_append_cons_self_of_not_mem hlf,
    splitLines]

/-! ### Lines do not depend on the chunks -/

namespace TextLineStream

/-- What is kept back of a text: a line that has not ended, or one that has by a carriage return
which a line feed may follow. -/
inductive Held : JsString → Prop where
  | line {a : JsString} (hcr : cr ∉ a) (hlf : lf ∉ a) : Held a
  | ended {a : JsString} (hcr : cr ∉ a) (hlf : lf ∉ a) : Held (a ++ [cr])

/-- The lines enqueued for a chunk are the lines of any text that starts with the chunk, up to
what is kept back. -/
structure Handles (chunk : JsString) (lines : List JsString) (rest : JsString) : Prop where
  held : Held rest
  split : ∀ u, splitLines (chunk ++ u) = lines ++ splitLines (rest ++ u)

lemma Handles.cons {chunk line after : JsString} {lines : List JsString} {rest : JsString}
    (h : Handles after lines rest)
    (hline : ∀ u, splitLines (chunk ++ u) = line :: splitLines (after ++ u)) :
    Handles chunk (line :: lines) rest where
  held := h.held
  split := fun u => by rw [hline, h.split, cons_append]

/-- Without a line that a carriage return ends by itself, the first carriage return is the last
unit or stands right before the first line feed. -/
lemma crLineIndex_eq_none {a b : JsString} (ha : cr ∉ a) (hlf : lf ∉ a)
    (h : crLineIndex (a ++ cr :: b) = none) : b = [] ∨ b.head? = some lf := by
  by_contra hline
  obtain ⟨hb, hhead⟩ := not_or.mp hline
  have hlast : a.length ≠ (a ++ cr :: b).length - 1 := by
    simp
    omega
  have hlate : ∀ i ∈ indexOf lf (a ++ cr :: b), i - 1 > a.length := by
    intro i hi
    obtain ⟨before, after, heq, hbefore, rfl⟩ := eq_append_of_indexOf hi
    rcases List.append_eq_append_iff.mp heq with ⟨m, rfl, hm⟩ | ⟨m, rfl, hm⟩
    · -- the line feed is not in `a`, and neither the carriage return nor the next unit is one
      cases m with
      | nil => simp [cr, lf, unit] at hm
      | cons c cs =>
        simp only [cons_append, List.cons.injEq] at hm
        obtain ⟨rfl, hb'⟩ := hm
        cases cs with
        | nil => simp [hb'] at hhead
        | cons d ds => simp
    · cases m with
      | nil => simp [cr, lf, unit] at hm
      | cons c cs =>
        simp only [cons_append, List.cons.injEq] at hm
        simp [hm.1] at hlf
  simp only [crLineIndex, indexOf_append ha] at h
  rw [if_pos ⟨hlast, hlate⟩] at h
  cases h

theorem handles_handleLoop (chunk : JsString) :
    Handles chunk (handleLoop true chunk).1 (handleLoop true chunk).2 := by
  fun_induction handleLoop true chunk with
  | case1 chunk i hcr lines rest hrec ih =>
    obtain ⟨before, after, rfl, rfl, hbefore, hfree, hne, hhead⟩ := eq_append_of_crLineIndex hcr
    have hdrop : (before ++ cr :: after).drop (before.length + 1) = after := by simp
    rw [hrec, hdrop] at ih
    rw [take_left]
    refine ih.cons fun u => ?_
    rw [append_assoc]
    refine splitLines_newline (normalizeNewlines_cr ?_) hbefore hfree
    cases after with
    | nil => exact absurd rfl hne
    | cons c cs => simpa using hhead
  | case2 chunk hcr i hlf crOrLfIndex lines rest hrec ih =>
    obtain ⟨before, after, rfl, hfree, rfl⟩ := eq_append_of_indexOf hlf
    have hdrop : (before ++ lf :: after).drop (before.length + 1) = after := by simp
    rw [hrec, hdrop] at ih
    refine ih.cons fun u => ?_
    rw [append_assoc]
    by_cases hmem : cr ∈ before
    · -- the carriage return stands right before the line feed
      obtain ⟨a, b, rfl, ha⟩ := eq_append_cons_of_mem hmem
      rw [append_assoc, cons_append] at hcr
      simp only [mem_append, mem_cons, not_or] at hfree
      obtain rfl : b = [] := by
        rcases crLineIndex_eq_none ha hfree.1 hcr with h | h
        · simp at h
        · cases b with
          | nil => rfl
          | cons c cs =>
            simp only [cons_append, head?_cons, Option.some.injEq] at h
            simp [h] at hfree
      have hunit : (a ++ [cr] ++ lf :: after)[(a ++ [cr]).length - 1]? = some cr := by simp
      have hindex : crOrLfIndex = (a ++ [cr]).length - 1 := if_pos ⟨by simp, hunit⟩
      have htake : (a ++ [cr] ++ lf :: after).take ((a ++ [cr]).length - 1) = a := by simp
      rw [hindex, htake, append_assoc]
      exact splitLines_newline (by simp [normalizeNewlines]) ha hfree.1
    · have hunit : ¬ (before.length ≠ 0 ∧
          (before ++ lf :: after)[before.length - 1]? = some cr) := by
        rintro ⟨hpos, hunit⟩
        rw [getElem?_append_left (by omega)] at hunit
        exact hmem (mem_of_getElem? hunit)
      have hindex : crOrLfIndex = before.length := if_neg hunit
      rw [hindex, take_left]
      exact splitLines_newline (normalizeNewlines_cons (by decide) _) hmem hfree
  | case3 chunk hcr hlf =>
    refine ⟨?_, fun u => rfl⟩
    rw [indexOf_eq_none] at hlf
    by_cases hmem : cr ∈ chunk
    · obtain ⟨a, b, rfl, ha⟩ := eq_append_cons_of_mem hmem
      simp only [mem_append, mem_cons, not_or] at hlf
      obtain rfl : b = [] := by
        refine (crLineIndex_eq_none ha hlf.1 hcr).resolve_right fun h => ?_
        exact hlf.2.2 (mem_of_head? h)
      exact .ended ha hlf.1
    · exact .line hmem hlf

/-- Through the stream go the lines of the text that have ended, and then perhaps a last one that
has not. -/
theorem pipe_eq (chunks : List JsString) (buf : JsString) (hbuf : Held buf) :
    ∃ last : List JsString, [] ∉ last ∧ pipe ⟨true, buf⟩ chunks =
      (splitLines (buf ++ chunks.flatten)).dropLast ++ last := by
  induction chunks generalizing buf with
  | nil =>
    rw [flatten_nil, append_nil, pipe, flush]
    cases hbuf with
    | line hcr hlf =>
      rw [splitLines_of_notMem hcr hlf]
      have hlast : buf.getLast? ≠ some cr := fun h => hcr (mem_of_getLast? h)
      by_cases hnil : buf = []
      · exact ⟨[], by simp, by simp [hnil]⟩
      · exact ⟨[buf], by simpa using Ne.symm hnil, by simp [length_pos_iff, hnil, hlast]⟩
    | @ended a hcr hlf =>
      have hlines : splitLines (a ++ [cr]) = [a, []] := by
        rw [splitLines_newline (normalizeNewlines_cr (by simp)) hcr hlf,
          splitLines_of_notMem (by simp) (by simp)]
      exact ⟨[], by simp, by simp [hlines]⟩
  | cons chunk chunks ih =>
    have h := handles_handleLoop (buf ++ chunk)
    obtain ⟨last, hne, hpipe⟩ := ih _ h.held
    refine ⟨last, hne, ?_⟩
    have hsplit := h.split chunks.flatten
    rw [append_assoc] at hsplit
    have hparts : splitLines ((handleLoop true (buf ++ chunk)).2 ++ chunks.flatten) ≠ [] :=
      splitOn_ne_nil _ _
    rw [flatten_cons, hsplit, dropLast_append_of_ne_nil hparts, append_assoc, ← hpipe]
    rfl

end TextLineStream

/-! ### Reading a block -/

namespace EventSource

variable {τ : Type} {number : JsString → Option τ} {url : JsString}

/-- A line with a field is read as the grammar says. -/
lemma fieldOf_eq_splitField {line : JsString} (h : line.head? ≠ some (unit ':')) :
    fieldOf line = some (splitField line) := by
  rw [fieldOf, if_neg h, splitField]
  cases hcolon : indexOf (unit ':') line with
  | none =>
    rw [indexOf_eq_none] at hcolon
    rw [takeWhile_ne_of_notMem hcolon, dropWhile_ne_of_notMem hcolon]
    rfl
  | some i =>
    obtain ⟨before, after, rfl, hbefore, rfl⟩ := eq_append_of_indexOf hcolon
    rw [takeWhile_ne_append hbefore, dropWhile_ne_append hbefore]
    simp

lemma fieldValues_append (name : JsString) (block block' : List JsString) :
    fieldValues name (block ++ block') = fieldValues name block ++ fieldValues name block' := by
  simp [fieldValues]

lemma fieldValues_singleton (name line : JsString) : fieldValues name [line] =
      match fieldOf line with
      | some (field, value) => if field = name then [value] else []
      | none => [] := by
  unfold fieldValues
  cases hfield : fieldOf line with
  | none => simp [hfield]
  | some p =>
    by_cases hname : p.1 = name
    · simp [hfield, hname]
    · simp [hfield, hname]

lemma getLastD_append {α : Type*} (l l' : List α) (x : α) :
    (l ++ l').getLastD x = l'.getLastD (l.getLastD x) := by
  cases l' with
  | nil => simp
  | cons y ys => simp [getLastD_eq_getLast?]

lemma blockId_append (lastEventId : JsString) (block block' : List JsString) :
    blockId lastEventId (block ++ block') = blockId (blockId lastEventId block) block' := by
  simp [blockId, fieldValues_append, filter_append]

/-- What a block of lines leaves in the buffers. -/
structure Reads (source source' : EventSource τ) (buffers buffers' : EventBuffers)
    (block : List JsString) : Prop where
  lastEventId : source'.lastEventId = source.lastEventId
  readyState : source'.readyState = source.readyState
  dispatched : source'.dispatched = source.dispatched
  data : buffers'.data = buffers.data ++ (fieldValues (js "data") block).flatMap (· ++ [lf])
  eventType : buffers'.eventType = (fieldValues (js "event") block).getLastD buffers.eventType
  id : buffers'.lastEventId = blockId buffers.lastEventId block

lemma reads_processLine (self : EventSource τ) (buffers : EventBuffers) {line : JsString}
    (hline : line ≠ []) :
    Reads self (self.processLine number url buffers line).1 buffers
      (self.processLine number url buffers line).2 [line] := by
  rw [processLine, if_neg hline]
  by_cases hcomment : line.head? = some (unit ':')
  · have hfield : fieldOf line = none := by rw [fieldOf, if_pos hcomment]
    rw [if_pos hcomment]
    constructor <;> simp [fieldValues_singleton, hfield, blockId]
  · have hfield := fieldOf_eq_splitField hcomment
    generalize splitField line = p at hfield
    obtain ⟨field, value⟩ := p
    have hdata : js "data" ≠ js "event" := by decide
    have hid : js "id" ≠ js "event" ∧ js "id" ≠ js "data" := by decide
    have hread := fun name => fieldValues_singleton name line
    simp only [hfield] at hread
    simp only
    split_ifs with h₁ h₂ h₃ h₄ h₅
    · subst h₁
      constructor <;> simp [hread, blockId, hdata.symm, hid.1.symm]
    · subst h₂
      constructor <;> simp [hread, blockId, hdata, hid.2.symm]
    · subst h₃
      constructor <;> simp [hread, blockId, h₄, hid]
    · subst h₃
      constructor <;> simp [hread, blockId, h₄, hid]
    · cases number value with
      | none | some _ => constructor <;> simp [hread, blockId, h₁, h₂, h₃]
    · constructor <;> simp [hread, blockId, h₁, h₂, h₃]

lemma Reads.refl (self : EventSource τ) (buffers : EventBuffers) :
    Reads self self buffers buffers [] := by
  constructor <;> simp [fieldValues, blockId]

lemma Reads.trans {s₁ s₂ s₃ : EventSource τ} {b₁ b₂ b₃ : EventBuffers}
    {block block' : List JsString} (h : Reads s₁ s₂ b₁ b₂ block)
    (h' : Reads s₂ s₃ b₂ b₃ block') : Reads s₁ s₃ b₁ b₃ (block ++ block') where
  lastEventId := h'.lastEventId.trans h.lastEventId
  readyState := h'.readyState.trans h.readyState
  dispatched := h'.dispatched.trans h.dispatched
  data := by rw [h'.data, h.data, fieldValues_append, flatMap_append, append_assoc]
  eventType := by rw [h'.eventType, h.eventType, fieldValues_append, getLastD_append]
  id := by rw [h'.id, h.id, blockId_append]

variable (number url) in
lemma reads_processLines (self : EventSource τ) (buffers : EventBuffers) {block : List JsString}
    (h : [] ∉ block) :
    Reads self (self.processLines number url buffers block).1 buffers
      (self.processLines number url buffers block).2 block := by
  induction block generalizing self buffers with
  | nil => exact Reads.refl self buffers
  | cons line lines ih =>
    simp only [mem_cons, not_or] at h
    exact (reads_processLine self buffers (Ne.symm h.1)).trans (ih _ _ h.2)

lemma processLines_append (self : EventSource τ) (buffers : EventBuffers)
    (lines lines' : List JsString) :
    self.processLines number url buffers (lines ++ lines') =
      (self.processLines number url buffers lines).1.processLines number url
        (self.processLines number url buffers lines).2 lines' := by
  induction lines generalizing self buffers with
  | nil => rfl
  | cons line lines ih => exact ih _ _

variable (url) in
lemma dispatch_eq {self : EventSource τ} {buffers : EventBuffers} {lastEventId : JsString}
    {block : List JsString} (hopen : self.readyState = .opened)
    (hdata : buffers.data = (fieldValues (js "data") block).flatMap (· ++ [lf]))
    (htype : buffers.eventType = (fieldValues (js "event") block).getLastD [])
    (hid : buffers.lastEventId = blockId lastEventId block) :
    self.dispatch url buffers = ({ self with
          lastEventId := blockId lastEventId block
          dispatched := self.dispatched ++ (blockEvent url lastEventId block).toList },
        ⟨[], [], blockId lastEventId block⟩) := by
  by_cases hvalues : fieldValues (js "data") block = []
  · have hnil : buffers.data = [] := by simp [hdata, hvalues]
    simp [dispatch, blockEvent, hvalues, hnil, hid]
  · rw [flatMap_append_singleton lf hvalues] at hdata
    simp [dispatch, blockEvent, hvalues, hdata, htype, hid, hopen]

/-- The events dispatched for some lines are those of the blocks that end in them. -/
lemma processLines_dispatched (lines : List JsString) (self : EventSource τ)
    (lastEventId : JsString) (hopen : self.readyState = .opened) :
    (self.processLines number url ⟨[], [], lastEventId⟩ lines).1.dispatched =
      self.dispatched ++ blockEvents url lastEventId (lines.splitOn []).dropLast := by
  induction lines using parts_ind ([] : JsString) generalizing self lastEventId with
  | last block hblock =>
    rw [(reads_processLines number url self _ hblock).dispatched, splitOn_eq_singleton hblock]
    simp [blockEvents]
  | cons block rest hblock ih =>
    have h := reads_processLines number url self ⟨[], [], lastEventId⟩ hblock
    have hparts : rest.splitOn [] ≠ [] := splitOn_ne_nil _ _
    have hdispatch := dispatch_eq url (h.readyState.trans hopen)
      (h.data.trans (nil_append _)) h.eventType h.id
    rw [processLines_append, processLines, processLine, hdispatch,
      splitOn_append_cons_self_of_not_mem hblock, dropLast_cons_of_ne_nil hparts,
      blockEvents]
    refine (ih _ _ ?_).trans ?_
    · exact h.readyState.trans hopen
    · simp [h.dispatched]

/-- The events of a connection are those of its text, however it is cut into chunks. -/
theorem loop_dispatched (number : JsString → Option τ) (url : JsString) (self : EventSource τ)
    (chunks : List JsString) :
    (self.loop number url chunks).dispatched =
      self.dispatched ++ eventsOfText url self.lastEventId chunks.flatten := by
  obtain ⟨last, hlast, hpipe⟩ := TextLineStream.pipe_eq chunks [] (.line (by simp) (by simp))
  rw [loop, hpipe, processLines_append, (reads_processLines number url _ _ hlast).dispatched]
  exact processLines_dispatched _ _ _ rfl

end EventSource

end Deno
