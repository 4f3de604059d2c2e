import Deno.Core.BufReader
import Deno.Core.Split
import Deno.Error
import Mathlib.Data.List.DropRight
import Mathlib.Data.List.Forall2

/-!
# Messages between processes

Messages are JSON texts, a line each. A message whose line is in the buffer of the reader as a
whole is parsed there, in place; the parts of any other are gathered in a second buffer first.
-/

namespace Deno

open Core Core.AsyncBufRead List

def newline : UInt8 := 10

/-- `serde_json::to_writer`, which writes a value, and `simd_json::from_slice`, which reads one
and leaves something else in the slice. -/
structure JsonCodec (α : Type) where
  null : α
  toWriter : α → Bytes
  fromSlice : Bytes → Except String α × Bytes

def jsonWhitespace : Bytes := [9, 10, 13, 32]

/-- What is relied on: texts have no newlines, and a text with white space behind it is read
back, by writing to nothing but the slice. -/
structure JsonCodec.Lawful {α : Type} (codec : JsonCodec α) : Prop where
  newline_notMem : ∀ value, newline ∉ codec.toWriter value
  fromSlice_toWriter : ∀ value space, (∀ b ∈ space, b ∈ jsonWhitespace) →
    (codec.fromSlice (codec.toWriter value ++ space)).1 = .ok value
  length_fromSlice : ∀ slice, (codec.fromSlice slice).2.length = slice.length

variable {α R : Type} [LawfulBufRead R AnyError]

/-- `write_msg`: what has been written, and the line of the message behind it. -/
def writeMsg (codec : JsonCodec α) (written : Bytes) (msg : α) : Bytes :=
  written ++ (codec.toWriter msg ++ [newline])

def memchr (needle : UInt8) (haystack : Bytes) : Option ℕ := haystack.idxOf? needle

def initialCapacity : ℕ := 1024 * 64

/-- The future of one read, with the slices that were given to the parser. -/
structure ReadMsgInner (R α : Type) where
  reader : R
  buf : Bytes
  json : Option α
  read : ℕ
  parsed : List Bytes

inductive MsgPoll where
  | pending
  | ready (nread : ℕ)
  | failed (error : AnyError)

/-- The loop of `read_msg_internal` goes on with an emptier reader. -/
lemma weight_consume_lt_of_pollFillBuf {r r' : R} {available : Bytes}
    (h : pollFillBuf r = (.ready available, r')) (hne : available ≠ []) :
    weight (consume r' available.length) < weight r := by
  cases fillRule h with
  | data _ _ _ hbuffer hweight =>
    exact Nat.lt_of_lt_of_le (weight_consume_lt hbuffer) hweight
  | closed => exact absurd rfl hne

/-- `read_msg_internal`: one poll of the future. -/
def readMsgInternal (codec : JsonCodec α) (s : ReadMsgInner R α) : MsgPoll × ReadMsgInner R α :=
  match _hpoll : pollFillBuf s.reader with
  | (.pending, reader) => (.pending, { s with reader := reader })
  | (.failed error, reader) => (.failed error, { s with reader := reader })
  | (.ready available, reader) =>
    match memchr newline available with
    | some i =>
      if s.read = 0 then
        -- fast path: parse in the buffer of the reader
        let slice := available.take (i + 1)
        let (result, overwritten) := codec.fromSlice slice
        let s := { s with
          reader := overwrite reader overwritten
          parsed := s.parsed ++ [slice] }
        match result with
        | .error e => (.failed (.io e), s)
        | .ok value =>
          (.ready (s.read + (i + 1)), { s with
            reader := consume s.reader (i + 1)
            json := some value
            read := 0 })
      else
        (.ready (s.read + (i + 1)), { s with
          reader := consume reader (i + 1)
          buf := s.buf ++ available.take (i + 1)
          read := 0 })
    | none =>
      let s' := { s with
        reader := consume reader available.length
        buf := s.buf ++ available
        read := s.read + available.length }
      if available = [] then (.ready s'.read, { s' with read := 0 })
      else readMsgInternal codec s'
termination_by weight s.reader
decreasing_by exact weight_consume_lt_of_pollFillBuf _hpoll ‹_›

variable {codec : JsonCodec α}

/-- A read that has to wait has taken something from the reader. -/
lemma weight_lt_of_pending {s s' : ReadMsgInner R α}
    (h : readMsgInternal codec s = (.pending, s')) : weight s'.reader < weight s.reader := by
  fun_induction readMsgInternal codec s with
  | case1 s reader hpoll =>
    cases h
    cases fillRule hpoll with
    | pending _ _ _ hweight => exact hweight
  | case7 s available reader hpoll hnone s' hne ih =>
    exact (ih h).trans (weight_consume_lt_of_pollFillBuf hpoll hne)
  | case2 | case3 | case4 | case5 | case6 => cases h

def awaitMsg (codec : JsonCodec α) (s : ReadMsgInner R α) :
    Except AnyError ℕ × ReadMsgInner R α :=
  match _hpoll : readMsgInternal codec s with
  | (.pending, s') => awaitMsg codec s'
  | (.ready nread, s') => (.ok nread, s')
  | (.failed error, s') => (.error error, s')
termination_by weight s.reader
decreasing_by exact weight_lt_of_pending _hpoll

structure IpcJsonStream (R : Type) where
  pipe : R
  buffer : Bytes
  parsed : List Bytes

namespace IpcJsonStream

def new (pipe : R) : IpcJsonStream R := ⟨pipe, [], []⟩

def readMsg (codec : JsonCodec α) (self : IpcJsonStream R) :
    Except AnyError α × IpcJsonStream R :=
  let (result, s) := awaitMsg codec ⟨self.pipe, self.buffer, none, 0, self.parsed⟩
  let self : IpcJsonStream R := ⟨s.reader, s.buf, s.parsed⟩
  match result with
  | .error error => (.error error, self)
  | .ok nread =>
    -- the end of the pipe
    if nread = 0 then (.ok codec.null, self)
    else
      match s.json with
      | some json => (.ok json, { self with buffer := [] })
      | none =>
        if self.buffer.length < nread then
          (.error (.panic "range end index out of range for slice"), self)
        else
          let slice := self.buffer.take nread
          let (result, overwritten) := codec.fromSlice slice
          let self := { self with
            buffer := overwritten ++ self.buffer.drop nread
            parsed := self.parsed ++ [slice] }
          match result with
          | .error e => (.error (.msg e), self)
          | .ok json => (.ok json, { self with buffer := [] })

def readMsgs (codec : JsonCodec α) (self : IpcJsonStream R) :
    ℕ → List (Except AnyError α) × IpcJsonStream R
  | 0 => ([], self)
  | n + 1 =>
    let (result, self) := self.readMsg codec
    let (results, self) := self.readMsgs codec n
    (result :: results, self)

end IpcJsonStream

/-! ### Receiving one message -/

def JsonCodec.parseLine (codec : JsonCodec α) (text : Bytes) : Except String α :=
  (codec.fromSlice (text ++ [newline])).1

variable {s : ReadMsgInner R α} {reader : R} {text later : Bytes}

/-- A reader that is in order, with `bytes` still to be read. -/
structure Yields (reader : R) (bytes : Bytes) : Prop where
  inOrder : InOrder reader
  rest : rest reader = bytes

lemma Yields.pending {r : R} (h : Yields r later) (hpoll : pollFillBuf r = (.pending, reader)) :
    Yields reader later := by
  cases fillRule hpoll with
  | pending _ horder hrest _ => exact ⟨horder h.inOrder, hrest.trans h.rest⟩

lemma Yields.not_failed {r : R} {error : AnyError} (h : Yields r later) :
    pollFillBuf r ≠ (.failed error, reader) := by
  intro hpoll
  cases fillRule hpoll with
  | failed _ _ horder => exact horder h.inOrder

/-- The next line is parsed in place if it ends in what the buffer is filled with. -/
def InPlace (reader : R) : Prop := newline ∈ nextFill reader

instance : Decidable (InPlace reader) := inferInstanceAs (Decidable (_ ∈ _))

lemma inPlace_pending {r : R} (hpoll : pollFillBuf r = (.pending, reader)) :
    InPlace r ↔ InPlace reader := by
  rw [InPlace, InPlace, nextFill]
  split <;> simp_all

lemma inPlace_ready {r : R} {available : Bytes}
    (hpoll : pollFillBuf r = (.ready available, reader)) : InPlace r ↔ newline ∈ available := by
  rw [InPlace, nextFill]
  split <;> simp_all

/-- A newline in the buffer of the reader ends the line. -/
lemma Yields.line_ends {r : R} {available buf : Bytes} {i : ℕ} (h : Yields r later)
    (hpoll : pollFillBuf r = (.ready available, reader)) (hi : memchr newline available = some i)
    (hbuf : newline ∉ buf) (htext : newline ∉ text) {after : Bytes}
    (hbytes : buf ++ later = text ++ newline :: after) :
    buf ++ available.take (i + 1) = text ++ [newline] ∧ buf.length + i = text.length ∧
      Yields (consume reader (i + 1)) after ∧ i + 1 ≤ (buffer reader).length := by
  cases fillRule hpoll with
  | closed => cases hi
  | data _ horder hrest hne hweight =>
    obtain ⟨before, behind, hbuffer, hbefore, rfl⟩ := eq_append_of_idxOf? hi
    obtain ⟨more, hmore⟩ := buffer_isPrefix reader
    have hbytes' : buf ++ before ++ newline :: (behind ++ more) = text ++ newline :: after := by
      rw [← hbytes, ← h.rest, ← hrest, ← hmore, hbuffer]
      simp
    obtain ⟨rfl, rfl⟩ := append_cons_inj (by simp [hbuf, hbefore]) htext hbytes'
    have hlength : before.length + 1 ≤ (buffer reader).length := by simp [hbuffer]
    refine ⟨?_, length_append.symm, ⟨inOrder_consume _ (horder h.inOrder), ?_⟩, hlength⟩
    · simp [hbuffer, take_append, take_of_length_le]
    · rw [rest_consume hlength, ← hmore, hbuffer]
      simp

/-! ### Parsing in place -/

/-- A read at the start of the line `text`, which is parsed in place. -/
structure InPlaceRead (s : ReadMsgInner R α) (text later : Bytes) : Prop where
  yields : Yields s.reader (text ++ newline :: later)
  read : s.read = 0
  inPlace : InPlace s.reader

/-- What polling such a read comes to. A malformed line is written over and stays in the reader. -/
def PolledInPlace (codec : JsonCodec α) (s : ReadMsgInner R α) (text later : Bytes) :
    MsgPoll × ReadMsgInner R α → Prop
  | (.pending, s') => InPlaceRead s' text later ∧ s'.parsed = s.parsed
  | (.ready nread, s') => nread = text.length + 1 ∧ Yields s'.reader later ∧
      s'.parsed = s.parsed ++ [text ++ [newline]] ∧
      ∃ value, codec.parseLine text = .ok value ∧ s'.json = some value
  | (.failed _, s') => (∃ e, codec.parseLine text = .error e) ∧
      (rest s'.reader).length = (text ++ newline :: later).length

lemma InPlaceRead.poll (hcodec : codec.Lawful) (htext : newline ∉ text)
    (h : InPlaceRead s text later) :
    PolledInPlace codec s text later (readMsgInternal codec s) := by
  fun_cases readMsgInternal codec s with
  | case1 reader hpoll =>
    exact ⟨⟨h.yields.pending hpoll, h.read, (inPlace_pending hpoll).mp h.inPlace⟩, rfl⟩
  | case2 error reader hpoll => exact absurd hpoll h.yields.not_failed
  | case3 available reader hpoll i hi hread slice overwritten s' e hslice =>
    obtain ⟨hline, hlength, -, hle⟩ := h.yields.line_ends hpoll hi not_mem_nil htext rfl
    have hover := hcodec.length_fromSlice slice
    rw [hslice] at hover
    refine ⟨⟨e, by rw [JsonCodec.parseLine, ← hline, nil_append, hslice]⟩, ?_⟩
    rw [length_rest_overwrite (by simp only [hover, slice, length_take]; omega), ← h.yields.rest]
    cases fillRule hpoll with
    | data _ _ hrest _ _ => rw [hrest]
    | closed => cases hi
  | case4 available reader hpoll i hi hread slice overwritten s' value hslice =>
    obtain ⟨hline, hlength, hyields, -⟩ := h.yields.line_ends hpoll hi not_mem_nil htext rfl
    rw [nil_append] at hline
    have hover := hcodec.length_fromSlice slice
    rw [hslice] at hover
    have hreader : consume (overwrite reader overwritten) (i + 1) = consume reader (i + 1) :=
      overwrite_consume (by simp only [hover, slice, hline]; simpa using hlength.symm)
    refine ⟨by simpa [s', hread] using hlength, ?_, by simp [s', slice, hline], value, ?_, rfl⟩
    · simpa only [s', hreader] using hyields
    · rw [JsonCodec.parseLine, ← hline, hslice]
  | case5 available reader hpoll i hi hread => exact absurd h.read hread
  | case6 reader hpoll hnone s' => exact absurd ((inPlace_ready hpoll).mp h.inPlace) not_mem_nil
  | case7 available reader hpoll hnone s' hne =>
    exact absurd ((inPlace_ready hpoll).mp h.inPlace) (List.idxOf?_eq_none_iff.mp hnone)

lemma InPlaceRead.await (hcodec : codec.Lawful) (htext : newline ∉ text)
    (h : InPlaceRead s text later) :
    match codec.parseLine text with
    | .ok value => ∃ s', awaitMsg codec s = (.ok (text.length + 1), s') ∧ Yields s'.reader later ∧
        s'.json = some value ∧ s'.parsed = s.parsed ++ [text ++ [newline]]
    | .error _ => ∃ error s', awaitMsg codec s = (.error error, s') ∧
        (rest s'.reader).length = (text ++ newline :: later).length := by
  have hpoll := h.poll hcodec htext
  fun_induction awaitMsg codec s with
  | case1 s s' hs ih =>
    rw [hs] at hpoll
    obtain ⟨hs', hparsed⟩ := hpoll
    rw [← hparsed]
    exact ih hs' (hs'.poll hcodec htext)
  | case2 s nread s' hs =>
    rw [hs] at hpoll
    obtain ⟨rfl, hyields, hparsed, value, hvalue, hjson⟩ := hpoll
    rw [hvalue]
    exact ⟨s', rfl, hyields, hjson, hparsed⟩
  | case3 s error s' hs =>
    rw [hs] at hpoll
    obtain ⟨⟨e, he⟩, hlength⟩ := hpoll
    rw [he]
    exact ⟨error, s', rfl, hlength⟩

/-! ### Gathering -/

/-- A read in the middle of the line `text`, which is not parsed in place. -/
structure Gathering (s : ReadMsgInner R α) (text later : Bytes) : Prop where
  inOrder : InOrder s.reader
  json : s.json = none
  read : s.read = s.buf.length
  gathered : newline ∉ s.buf
  bytes : s.buf ++ rest s.reader = text ++ newline :: later
  inPlace : s.read = 0 → ¬ InPlace s.reader

section

variable (h : Gathering s text later)

include h

lemma Gathering.yields : Yields s.reader (rest s.reader) := ⟨h.inOrder, rfl⟩

lemma Gathering.gather {available : Bytes}
    (hpoll : pollFillBuf s.reader = (.ready available, reader))
    (hnone : memchr newline available = none) :
    available ≠ [] ∧ Gathering { s with
      reader := consume reader available.length
      buf := s.buf ++ available
      read := s.read + available.length } text later := by
  cases fillRule hpoll with
  | closed hrest =>
    -- the line has not ended
    have hbytes := h.bytes
    rw [hrest h.inOrder, append_nil] at hbytes
    exact absurd (hbytes ▸ by simp) h.gathered
  | data _ horder hrest hne hweight =>
    obtain ⟨more, hmore⟩ := buffer_isPrefix reader
    refine ⟨hne, ?_⟩
    exact
      { inOrder := inOrder_consume _ (horder h.inOrder)
        json := h.json
        read := by simp [h.read]
        gathered := by simp [h.gathered, List.idxOf?_eq_none_iff.mp hnone]
        bytes := by
          rw [rest_consume (Nat.le_refl _), ← h.bytes, ← hrest, ← hmore]
          simp
        inPlace := fun hread =>
          absurd (length_eq_zero_iff.mp (Nat.add_eq_zero_iff.mp hread).2) hne }

end

def PolledGathering (parsed : List Bytes) (text later : Bytes) :
    MsgPoll × ReadMsgInner R α → Prop
  | (.pending, s) => Gathering s text later ∧ s.parsed = parsed
  | (.ready nread, s) => nread = text.length + 1 ∧ Yields s.reader later ∧ s.json = none ∧
      s.buf = text ++ [newline] ∧ s.parsed = parsed
  | (.failed _, _) => False

lemma Gathering.poll (htext : newline ∉ text) (h : Gathering s text later) :
    PolledGathering s.parsed text later (readMsgInternal codec s) := by
  fun_induction readMsgInternal codec s with
  | case1 s reader hpoll =>
    obtain ⟨horder, hrest⟩ := h.yields.pending hpoll
    refine ⟨⟨horder, h.json, h.read, h.gathered, ?_, ?_⟩, rfl⟩
    · simpa only [hrest] using h.bytes
    · simpa only [← inPlace_pending hpoll] using h.inPlace
  | case2 s error reader hpoll => exact absurd hpoll h.yields.not_failed
  | case3 s available reader hpoll i hi hread | case4 s available reader hpoll i hi hread =>
    refine absurd ((inPlace_ready hpoll).mpr ?_) (h.inPlace hread)
    obtain ⟨before, after, rfl, -, -⟩ := eq_append_of_idxOf? hi
    simp
  | case5 s available reader hpoll i hi hread =>
    obtain ⟨hline, hlength, hyields, -⟩ := h.yields.line_ends hpoll hi h.gathered htext h.bytes
    exact ⟨by simp [h.read, ← hlength, Nat.add_assoc], hyields, h.json, hline, rfl⟩
  | case6 s reader hpoll hnone s' => exact absurd rfl (h.gather hpoll hnone).1
  | case7 s available reader hpoll hnone s' hne ih => exact ih (h.gather hpoll hnone).2

lemma Gathering.await (htext : newline ∉ text) (h : Gathering s text later) :
    ∃ s', awaitMsg codec s = (.ok (text.length + 1), s') ∧ Yields s'.reader later ∧
      s'.json = none ∧ s'.buf = text ++ [newline] ∧ s'.parsed = s.parsed := by
  have hpoll := @Gathering.poll _ _ _ codec _ _ _ htext h
  fun_induction awaitMsg codec s with
  | case1 s s' hs ih =>
    rw [hs] at hpoll
    rw [← hpoll.2]
    exact ih hpoll.1 (hpoll.1.poll htext)
  | case2 s nread s' hs =>
    rw [hs] at hpoll
    obtain ⟨rfl, hs'⟩ := hpoll
    exact ⟨s', rfl, hs'⟩
  | case3 s error s' hs =>
    rw [hs] at hpoll
    exact hpoll.elim

namespace IpcJsonStream

variable {self : IpcJsonStream R}

/-- A stream between two messages, with `later` still to come. -/
structure Waiting (stream : IpcJsonStream R) (later : Bytes) : Prop where
  yields : Yields stream.pipe later
  buffer : stream.buffer = []

/-- The next line is read, and nothing but it is parsed. -/
def Reads (codec : JsonCodec α) (stream : IpcJsonStream R) (text later : Bytes) (value : α) :
    Prop :=
  ∃ self', stream.readMsg codec = (.ok value, self') ∧ self'.Waiting later ∧
    self'.parsed = stream.parsed ++ [text ++ [newline]]

/-- The next line is parsed in place, whatever the buffer holds. If it is malformed, the reader
still has as many bytes. -/
lemma readMsg_inPlace (hcodec : codec.Lawful) (htext : newline ∉ text)
    (h : Yields self.pipe (text ++ newline :: later)) (hplace : InPlace self.pipe) :
    match codec.parseLine text with
    | .ok value => self.Reads codec text later value
    | .error _ => ∃ error self', self.readMsg codec = (.error error, self') ∧
        (rest self'.pipe).length = (text ++ newline :: later).length := by
  have hread : InPlaceRead (α := α) ⟨self.pipe, self.buffer, none, 0, self.parsed⟩ text later :=
    ⟨h, rfl, hplace⟩
  have hawait := hread.await hcodec htext
  unfold Reads IpcJsonStream.readMsg
  cases hvalue : codec.parseLine text with
  | ok value =>
    rw [hvalue] at hawait
    obtain ⟨s', hawait, hyields, hjson, hparsed⟩ := hawait
    rw [hawait]
    simp only [Nat.add_one_ne_zero, if_false, hjson]
    exact ⟨_, rfl, ⟨hyields, rfl⟩, hparsed⟩
  | error e =>
    rw [hvalue] at hawait
    obtain ⟨error, s', hawait, hlength⟩ := hawait
    rw [hawait]
    exact ⟨error, _, rfl, hlength⟩

/-- The next line is gathered. If it is malformed, it stays in the buffer, written over. -/
lemma Waiting.readMsg_gathering (hcodec : codec.Lawful) (htext : newline ∉ text)
    (h : self.Waiting (text ++ newline :: later)) (hplace : ¬ InPlace self.pipe) :
    match codec.parseLine text with
    | .ok value => self.Reads codec text later value
    | .error _ => ∃ error self', self.readMsg codec = (.error error, self') ∧
        Yields self'.pipe later ∧ self'.buffer ≠ [] := by
  have hgathering : Gathering (α := α) ⟨self.pipe, self.buffer, none, 0, self.parsed⟩ text later :=
    { inOrder := h.yields.inOrder
      json := rfl
      read := by simp [h.buffer]
      gathered := by simp [h.buffer]
      bytes := by simp [h.buffer, h.yields.rest]
      inPlace := fun _ => hplace }
  obtain ⟨s', hawait, hyields, hjson, hbuf, hparsed⟩ :=
    @Gathering.await _ _ _ codec _ _ _ htext hgathering
  have htake : s'.buf.take (text.length + 1) = text ++ [newline] := by
    rw [hbuf, take_of_length_le (by simp)]
  have hlength : ¬ s'.buf.length < text.length + 1 := by simp [hbuf]
  unfold Reads IpcJsonStream.readMsg
  rw [hawait]
  simp only [Nat.add_one_ne_zero, if_false, hjson, hlength, htake]
  have hover := hcodec.length_fromSlice (text ++ [newline])
  cases hvalue : codec.parseLine text with
  | ok value =>
    rw [JsonCodec.parseLine] at hvalue
    simp only [hvalue]
    exact ⟨_, rfl, ⟨hyields, rfl⟩, by rw [hparsed]⟩
  | error e =>
    rw [JsonCodec.parseLine] at hvalue
    simp only [hvalue]
    refine ⟨_, _, rfl, hyields, fun hnil => ?_⟩
    simp [(append_eq_nil_iff.mp hnil).1] at hover

lemma Waiting.readMsg_ok (hcodec : codec.Lawful) (htext : newline ∉ text)
    (h : self.Waiting (text ++ newline :: later)) {value : α}
    (hvalue : codec.parseLine text = .ok value) : self.Reads codec text later value := by
  by_cases hplace : InPlace self.pipe
  · simpa only [hvalue] using readMsg_inPlace hcodec htext h.yields hplace
  · simpa only [hvalue] using h.readMsg_gathering hcodec htext hplace

variable (codec) in
lemma poll_end (h : Yields s.reader []) (hread : s.read = 0) :
    ∃ reader, Yields reader [] ∧
      (readMsgInternal codec s = (.pending, { s with reader := reader }) ∨
        readMsgInternal codec s = (.ready 0, { s with reader := reader })) := by
  have hready : ∀ {available reader}, pollFillBuf s.reader = (.ready available, reader) →
      available = [] ∧ reader = s.reader := by
    intro available reader hpoll
    cases fillRule hpoll with
    | data _ _ hrest hne _ =>
      rw [h.rest] at hrest
      exact absurd (prefix_nil.mp (hrest ▸ buffer_isPrefix reader)) hne
    | closed _ => exact ⟨rfl, rfl⟩
  fun_cases readMsgInternal codec s with
  | case1 reader hpoll => exact ⟨reader, h.pending hpoll, .inl rfl⟩
  | case2 error reader hpoll => exact absurd hpoll h.not_failed
  | case3 available reader hpoll i hi | case4 available reader hpoll i hi
  | case5 available reader hpoll i hi =>
    rw [(hready hpoll).1] at hi
    cases hi
  | case6 reader hpoll hnone s' =>
    obtain ⟨-, rfl⟩ := hready hpoll
    exact ⟨s.reader, h, .inr (by simp [s', consume_zero, hread])⟩
  | case7 available reader hpoll hnone s' hne => exact absurd (hready hpoll).1 hne

variable (codec) in
lemma await_end (h : Yields s.reader []) (hread : s.read = 0) :
    ∃ reader, Yields reader [] ∧ awaitMsg codec s = (.ok 0, { s with reader := reader }) := by
  fun_induction awaitMsg codec s with
  | case1 s s' hs ih =>
    obtain ⟨reader, hreader, hpoll | hpoll⟩ := poll_end codec h hread <;> cases hs.symm.trans hpoll
    exact ih hreader hread
  | case2 s nread s' hs =>
    obtain ⟨reader, hreader, hpoll | hpoll⟩ := poll_end codec h hread <;> cases hs.symm.trans hpoll
    exact ⟨reader, hreader, rfl⟩
  | case3 s error s' hs =>
    obtain ⟨reader, hreader, hpoll | hpoll⟩ := poll_end codec h hread <;> cases hs.symm.trans hpoll

lemma Waiting.readMsg_end (h : self.Waiting []) :
    ∃ self', self.readMsg codec = (.ok codec.null, self') ∧ self'.Waiting [] ∧
      self'.parsed = self.parsed := by
  obtain ⟨reader, hreader, hawait⟩ :=
    @await_end _ _ _ codec ⟨self.pipe, self.buffer, none, 0, self.parsed⟩ h.yields rfl
  rw [IpcJsonStream.readMsg, hawait]
  exact ⟨_, rfl, ⟨hreader, h.buffer⟩, rfl⟩

lemma Waiting.readMsgs_end (h : self.Waiting []) (n : ℕ) :
    (self.readMsgs codec n).1 = List.replicate n (.ok codec.null) ∧
      (self.readMsgs codec n).2.parsed = self.parsed := by
  induction n generalizing self with
  | zero => exact ⟨rfl, rfl⟩
  | succ n ih =>
    obtain ⟨self', hread, hself', hparsed⟩ := @Waiting.readMsg_end _ _ _ codec _ h
    obtain ⟨hresults, hparsed'⟩ := ih hself'
    rw [readMsgs, hread]
    exact ⟨by simp [hresults, replicate_succ], hparsed'.trans hparsed⟩

abbrev Lines (codec : JsonCodec α) : List Bytes → List α → Prop :=
  Forall₂ fun text value => newline ∉ text ∧ codec.parseLine text = .ok value

def bytesOf (lines : List Bytes) : Bytes := lines.flatMap (· ++ [newline])

lemma bytesOf_cons (line : Bytes) (lines : List Bytes) :
    bytesOf (line :: lines) = line ++ newline :: bytesOf lines := by
  simp [bytesOf]

lemma Waiting.readMsgs (hcodec : codec.Lawful) {lines : List Bytes} {values : List α}
    (hlines : Lines codec lines values) (h : self.Waiting (bytesOf lines)) :
    ∃ self' : IpcJsonStream R, self'.Waiting [] ∧
      self'.parsed = self.parsed ++ lines.map (· ++ [newline]) ∧
      ∀ n, self.readMsgs codec (values.length + n) =
        (values.map .ok ++ (self'.readMsgs codec n).1, (self'.readMsgs codec n).2) := by
  induction hlines generalizing self with
  | nil => exact ⟨self, h, by simp, fun n => by simp⟩
  | @cons text value lines values hline _ ih =>
    rw [bytesOf_cons] at h
    obtain ⟨self', hread, hself', hparsed⟩ := h.readMsg_ok hcodec hline.1 hline.2
    obtain ⟨self'', hself'', hparsed', hreads⟩ := ih hself'
    refine ⟨self'', hself'', by simp [hparsed', hparsed], fun n => ?_⟩
    rw [length_cons, Nat.add_right_comm, IpcJsonStream.readMsgs, hread]
    simp [hreads]

lemma foldl_writeMsg (msgs : List α) (written : Bytes) :
    msgs.foldl (writeMsg codec) written = written ++ bytesOf (msgs.map codec.toWriter) := by
  induction msgs generalizing written with
  | nil => simp [bytesOf]
  | cons msg msgs ih => simp [ih, writeMsg, bytesOf]

lemma lines_toWriter (hcodec : codec.Lawful) (msgs : List α) :
    Lines codec (msgs.map codec.toWriter) msgs := by
  rw [Lines, forall₂_map_left_iff, forall₂_same]
  exact fun msg _ => ⟨hcodec.newline_notMem msg,
    hcodec.fromSlice_toWriter msg [newline] (List.all_iff_forall_prop.mp (by decide))⟩

/-- The messages that were written are read, one after the other, however their bytes arrive, and
null behind them; each time exactly the line of one message is parsed. -/
theorem readMsgs_eq (codec : JsonCodec α) (hcodec : codec.Lawful) (msgs : List α)
    (pipe : R) (horder : InOrder pipe)
    (hbytes : rest pipe = msgs.foldl (writeMsg codec) []) (n : ℕ) :
    ((new pipe).readMsgs codec (msgs.length + n)).1 =
        msgs.map .ok ++ List.replicate n (.ok codec.null) ∧
      ((new pipe).readMsgs codec (msgs.length + n)).2.parsed =
        msgs.map fun msg => codec.toWriter msg ++ [newline] := by
  rw [foldl_writeMsg, nil_append] at hbytes
  have h : (new pipe).Waiting _ := ⟨⟨horder, hbytes⟩, rfl⟩
  obtain ⟨self', hself', hparsed, hreads⟩ := h.readMsgs hcodec (lines_toWriter hcodec msgs)
  obtain ⟨hresults, hparsed'⟩ := @Waiting.readMsgs_end _ _ _ codec _ hself' n
  rw [hreads, hresults, hparsed', hparsed]
  exact ⟨rfl, by simp [new, Function.comp_def]⟩

/-! ### Malformed lines -/

/-- What the next line is taken from: the reader if it is parsed in place, or else the buffer and
the reader. -/
def source (self : IpcJsonStream R) : Bytes :=
  if InPlace self.pipe then rest self.pipe else self.buffer ++ rest self.pipe

/-- The calls take one line each, and give its value or an error. -/
def Right (codec : JsonCodec α) : List Bytes → IpcJsonStream R → Prop
  | [], _ => True
  | line :: lines, self => self.source = bytesOf (line :: lines) ∧
      (self.readMsg codec).1.toOption = (codec.parseLine line).toOption ∧
      Right codec lines (self.readMsg codec).2

/-- A malformed line before the last one is gathered, and the line behind it is parsed in place. -/
def Recovers (codec : JsonCodec α) : List Bytes → IpcJsonStream R → Prop
  | line :: next :: lines, self =>
      ((codec.parseLine line).toOption = none →
        ¬ InPlace self.pipe ∧ InPlace (self.readMsg codec).2.pipe) ∧
      Recovers codec (next :: lines) (self.readMsg codec).2
  | _, _ => True

/-- A stream whose next line is taken from `later`. -/
structure Ready (stream : IpcJsonStream R) (later : Bytes) : Prop where
  yields : Yields stream.pipe later
  buffer : stream.buffer = [] ∨ InPlace stream.pipe

lemma Ready.source_eq (h : self.Ready later) : self.source = later := by
  rw [source]
  split_ifs with hplace
  · exact h.yields.rest
  · rw [h.buffer.resolve_right hplace, nil_append, h.yields.rest]

lemma Ready.readMsg_ok (hcodec : codec.Lawful) (htext : newline ∉ text)
    (h : self.Ready (text ++ newline :: later)) {value : α}
    (hvalue : codec.parseLine text = .ok value) :
    ∃ self', self.readMsg codec = (.ok value, self') ∧ self'.Ready later := by
  obtain ⟨self', hread, hwaiting, -⟩ : self.Reads codec text later value := by
    rcases h.buffer with hbuffer | hplace
    · exact Waiting.readMsg_ok hcodec htext ⟨h.yields, hbuffer⟩ hvalue
    · simpa only [hvalue] using readMsg_inPlace hcodec htext h.yields hplace
  exact ⟨self', hread, hwaiting.yields, .inl hwaiting.buffer⟩

/-- A malformed line is an error. What the next line is taken from is right exactly if the line
was gathered and the next one is parsed in place. -/
lemma Ready.readMsg_error (hcodec : codec.Lawful) (htext : newline ∉ text)
    (h : self.Ready (text ++ newline :: later)) {e : String}
    (he : codec.parseLine text = .error e) :
    ∃ error self', self.readMsg codec = (.error error, self') ∧
      (¬ InPlace self.pipe ∧ InPlace self'.pipe → self'.Ready later) ∧
      (self'.source = later → ¬ InPlace self.pipe ∧ InPlace self'.pipe) := by
  by_cases hplace : InPlace self.pipe
  · have hread := readMsg_inPlace hcodec htext h.yields hplace
    rw [he] at hread
    obtain ⟨error, self', hread, hlength⟩ := hread
    refine ⟨error, self', hread, fun h => absurd hplace h.1, fun hsource => ?_⟩
    have hle : (rest self'.pipe).length ≤ later.length := by
      rw [← hsource, source]
      split_ifs <;> simp
    simp only [hlength, length_append, length_cons] at hle
    omega
  · have hwaiting : self.Waiting _ := ⟨h.yields, h.buffer.resolve_right hplace⟩
    have hread := hwaiting.readMsg_gathering hcodec htext hplace
    rw [he] at hread
    obtain ⟨error, self', hread, hyields, hne⟩ := hread
    refine ⟨error, self', hread, fun h => ⟨hyields, .inr h.2⟩, fun hsource => ⟨hplace, ?_⟩⟩
    by_contra hnext
    rw [source, if_neg hnext, hyields.rest] at hsource
    exact hne (append_left_eq_self.mp hsource)

lemma Ready.right_iff_recovers (hcodec : codec.Lawful) {lines : List Bytes}
    (hlines : ∀ line ∈ lines, newline ∉ line) (h : self.Ready (bytesOf lines)) :
    Right codec lines self ↔ Recovers codec lines self := by
  induction lines generalizing self with
  | nil => exact Iff.rfl
  | cons line lines ih =>
    obtain ⟨hline, hlines⟩ := forall_mem_cons.mp hlines
    have hsource := h.source_eq
    rw [bytesOf_cons] at h
    rw [Right, and_iff_right hsource]
    cases hvalue : codec.parseLine line with
    | ok value =>
      obtain ⟨self', hread, hself'⟩ := h.readMsg_ok hcodec hline hvalue
      rw [hread, ih hlines hself']
      cases lines with
      | nil => simp [Recovers, Except.toOption]
      | cons next lines => simp [Recovers, hvalue, hread, Except.toOption]
    | error e =>
      obtain ⟨error, self', hread, hready, hright⟩ := h.readMsg_error hcodec hline hvalue
      simp only [hread, Except.toOption, true_and]
      cases lines with
      | nil => exact Iff.rfl
      | cons next lines =>
        simp only [Recovers, hvalue, hread, Except.toOption, true_imp_iff]
        constructor
        · intro hself'
          have hplaces := hright hself'.1
          exact ⟨hplaces, (ih hlines (hready hplaces)).mp hself'⟩
        · rintro ⟨hplaces, hself'⟩
          exact (ih hlines (hready hplaces)).mpr hself'

/-- However the bytes arrive, each call takes one line and gives its value or an error exactly if
every malformed line before the last one is gathered and the line behind it is parsed in place. -/
theorem readMsgs_right_iff (codec : JsonCodec α) (hcodec : codec.Lawful) {lines : List Bytes}
    (hlines : ∀ line ∈ lines, newline ∉ line) (pipe : R) (horder : InOrder pipe)
    (hbytes : rest pipe = bytesOf lines) :
    Right codec lines (new pipe) ↔ Recovers codec lines (new pipe) :=
  Ready.right_iff_recovers hcodec hlines ⟨⟨horder, hbytes⟩, .inl rfl⟩

/-- The values `null`, `true` and `false`, with a parser that leaves zeros in the slice. -/
def literals : JsonCodec (Option Bool) where
  null := none
  toWriter
    | none => [110, 117, 108, 108]
    | some true => [116, 114, 117, 101]
    | some false => [102, 97, 108, 115, 101]
  fromSlice slice :=
    let text := slice.rdropWhile (· ∈ jsonWhitespace)
    let result : Except String (Option Bool) :=
      if text = [110, 117, 108, 108] then .ok none
      else if text = [116, 114, 117, 101] then .ok (some true)
      else if text = [102, 97, 108, 115, 101] then .ok (some false)
      else .error "InvalidLiteral"
    (result, List.replicate slice.length 0)

lemma lawful_literals : literals.Lawful where
  newline_notMem value := by
    cases value with
    | none => decide
    | some b => cases b <;> decide
  fromSlice_toWriter value space hspace := by
    have htrim : ∀ text : Bytes, (text ++ space).rdropWhile (· ∈ jsonWhitespace) =
        text.rdropWhile (· ∈ jsonWhitespace) := by
      intro text
      rw [List.rdropWhile, List.rdropWhile, reverse_append,
        dropWhile_append_of_pos (by simpa using hspace)]
    simp only [literals, htrim]
    cases value with
    | none => decide
    | some b => cases b <;> decide
  length_fromSlice slice := by simp [literals]

theorem readMsgs_eq_literals :
    ((new (BufReader.withCapacity initialCapacity ⟨[.pending, .chunk [116, 114] (by decide),
        .chunk [117, 101, 10, 110] (by decide), .pending, .chunk [117, 108, 108, 10] (by decide)],
        none⟩)).readMsgs literals 3).1 = [.ok (some true), .ok none, .ok none] :=
  (readMsgs_eq literals lawful_literals [some true, none] (BufReader.withCapacity initialCapacity
    ⟨[.pending, .chunk [116, 114] (by decide), .chunk [117, 101, 10, 110] (by decide),
      .pending, .chunk [117, 108, 108, 10] (by decide)], none⟩)
    (BufReader.inOrder_withCapacity (by decide) rfl) (by decide) 1).1

/-- The lines `xy` and `true`, with the first one in two pieces. -/
def torn : BufReader AnyError :=
  .withCapacity initialCapacity
    ⟨[.chunk [120] (by decide), .chunk [121, 10, 116, 114, 117, 101, 10] (by decide)], none⟩

theorem readMsgs_right_iff_torn : Right literals [[120, 121], [116, 114, 117, 101]] (new torn) :=
  (readMsgs_right_iff literals lawful_literals (by decide) torn
    (BufReader.inOrder_withCapacity (by decide) rfl) (by decide)).mpr
    ⟨fun _ => ⟨by decide +kernel, by decide +kernel⟩, trivial⟩

/-- The lines `x` and `true` in one piece: the bytes of the first one become part of the second. -/
theorem readMsgs_malformed : literals.parseLine [116, 114, 117, 101] = .ok (some true) ∧
      ((new (BufReader.withCapacity initialCapacity
          ⟨[.chunk [120, 10, 116, 114, 117, 101, 10] (by decide)], none⟩)).readMsgs literals 2).1 =
        [.error (.io "InvalidLiteral"), .error (.io "InvalidLiteral")] := by
  refine ⟨rfl, ?_⟩
  decide +kernel

end IpcJsonStream

end Deno
