import Deno.Web.Infra

/-!
# Headers

A list of names and values. Names are compared in lower case; a name that is there already is kept
as it was first written.
-/

namespace Deno.Fetch

open Core List

abbrev Header := JsString × JsString

abbrev HeaderList := List Header

inductive Guard where
  | immutable
  | request
  | requestNoCors
  | response
  | none
  deriving DecidableEq

structure Headers where
  headerList : HeaderList := []
  guard : Guard := .none
  iterableHeadersCache : Option (List Header) := none
  deriving DecidableEq

def isByteString (input : JsString) : Bool := input.all (· ≤ 255)

def convertByteString (text : String) (v : JsString) : Except AnyError JsString :=
  if isByteString v then .ok v else .error (typeError (text ++ " is not a valid ByteString"))

def normalizeHeaderValue (potentialValue : JsString) : JsString := httpTrim potentialValue

def checkForInvalidValueChars (value : JsString) : Bool :=
  value.all fun c => c != 0x0a && c != 0x0d && c != 0x00

def checkHeaderNameForHttpTokenCodePoint (name : JsString) : Bool := isHttpToken name

def Header.hasName (lowercaseName : JsString) (entry : Header) : Bool :=
  byteLowerCase entry.1 = lowercaseName

/-- What `append` and `set` check about a name and a normalized value. -/
def Headers.check (headers : Headers) (name : JsString) (value : Option JsString) :
    Except AnyError Unit :=
  if !checkHeaderNameForHttpTokenCodePoint name then .error (typeError "Header name is not valid.")
  else if value.any fun v => !checkForInvalidValueChars v then
    .error (typeError "Header value is not valid.")
  else if headers.guard = .immutable then .error (typeError "Headers are immutable.")
  else .ok ()

/-- The name under which a value is appended: as the first entry under it has it. -/
def storedName (list : HeaderList) (name : JsString) : JsString :=
  match list.find? (Header.hasName (byteLowerCase name)) with
  | some entry => entry.1
  | none => name

def appendHeader (headers : Headers) (name value : JsString) : Except AnyError Headers := do
  let value := normalizeHeaderValue value
  headers.check name (some value)
  let list := headers.headerList
  return { headers with headerList := list ++ [(storedName list name, value)] }

/-- The list of values under a name joined, or nothing if there are none. -/
def joinValues : List JsString → Option JsString
  | [] => none
  | entries => some ((js ", ").intercalate entries)

def valuesOf (list : HeaderList) (lowercaseName : JsString) : List JsString :=
  (list.filter (Header.hasName lowercaseName)).map Prod.snd

def getHeader (list : HeaderList) (name : JsString) : Option JsString :=
  joinValues (valuesOf list (byteLowerCase name))

/-- The loop of `set`: the first entry gets the value and the others go. -/
def setLoop (lowercaseName value : JsString) : HeaderList → Bool → HeaderList × Bool
  | [], added => ([], added)
  | entry :: list, added =>
    if entry.hasName lowercaseName then
      if !added then
        let (list, added) := setLoop lowercaseName value list true
        ((entry.1, value) :: list, added)
      else setLoop lowercaseName value list added
    else
      let (list, added) := setLoop lowercaseName value list added
      (entry :: list, added)

namespace Headers

variable (headers : Headers) (name value : JsString)

def append : Except AnyError Headers := do
  let name ← convertByteString "Failed to execute 'append' on 'Headers': Argument 1" name
  let value ← convertByteString "Failed to execute 'append' on 'Headers': Argument 2" value
  appendHeader headers name value

def delete : Except AnyError Headers := do
  let name ← convertByteString "Failed to execute 'delete' on 'Headers': Argument 1" name
  headers.check name none
  let keep := fun entry : Header => !entry.hasName (byteLowerCase name)
  return { headers with headerList := headers.headerList.filter keep }

def get : Except AnyError (Option JsString) := do
  let name ← convertByteString "Failed to execute 'get' on 'Headers': Argument 1" name
  if !checkHeaderNameForHttpTokenCodePoint name then .error (typeError "Header name is not valid.")
  return getHeader headers.headerList name

def set : Except AnyError Headers := do
  let name ← convertByteString "Failed to execute 'set' on 'Headers': Argument 1" name
  let value ← convertByteString "Failed to execute 'set' on 'Headers': Argument 2" value
  let value := normalizeHeaderValue value
  headers.check name (some value)
  let (list, added) := setLoop (byteLowerCase name) value headers.headerList false
  return { headers with headerList := if !added then list ++ [(name, value)] else list }

end Headers

/-! ### Valid calls -/

structure HeaderName where
  text : JsString
  token : isHttpToken text

/-- A value that is valid once the whitespace around it is gone. -/
structure HeaderValue where
  text : JsString
  bytes : isByteString text
  valid : checkForInvalidValueChars (between httpWhitespace text)

inductive HeaderOp where
  | append (name : HeaderName) (value : HeaderValue)
  | set (name : HeaderName) (value : HeaderValue)
  | delete (name : HeaderName)

def HeaderName.lower (name : HeaderName) : JsString := byteLowerCase name.text

def HeaderValue.normalized (value : HeaderValue) : JsString := between httpWhitespace value.text

def Headers.apply (headers : Headers) : HeaderOp → Except AnyError Headers
  | .append name value => headers.append name.text value.text
  | .set name value => headers.set name.text value.text
  | .delete name => headers.delete name.text

/-- What a call does to the values under each name. -/
def HeaderOp.update (values : JsString → List JsString) : HeaderOp → JsString → List JsString
  | .append name value => Function.update values name.lower (values name.lower ++ [value.normalized])
  | .set name value => Function.update values name.lower [value.normalized]
  | .delete name => Function.update values name.lower []

/-- The values under each name, in the order in which they came. -/
def insertedValues (ops : List HeaderOp) : JsString → List JsString :=
  ops.foldl HeaderOp.update fun _ => []

section

lemma HeaderName.convert (name : HeaderName) (text : String) :
    convertByteString text name.text = .ok name.text := by
  have hbytes : isByteString name.text := by
    refine List.all_eq_true.mpr fun c hc => decide_eq_true ?_
    have hlt := lt_of_token ((isHttpToken_iff.mp name.token).2 c hc)
    exact UInt16.le_trans (UInt16.le_of_lt hlt) (by decide)
  rw [convertByteString, if_pos hbytes]

lemma HeaderValue.convert (value : HeaderValue) (text : String) :
    convertByteString text value.text = .ok value.text := by
  rw [convertByteString, if_pos value.bytes]

lemma HeaderValue.normalize (value : HeaderValue) :
    normalizeHeaderValue value.text = value.normalized := by
  apply httpTrim_eq
  have hvalid := List.all_eq_true.mp value.valid
  refine List.all_eq_true.mpr fun c hc => ?_
  have hbyte := of_decide_eq_true (List.all_eq_true.mp value.bytes c (between_part.subset hc))
  have hne : ∀ d : UInt16, 255 < d → c ≠ d := by
    rintro d hd rfl
    exact UInt16.not_lt.mpr hbyte hd
  have hline := hvalid c hc
  simp only [Bool.and_eq_true, bne_iff_ne] at hline
  simp only [isDot, Bool.and_eq_true, bne_iff_ne]
  exact ⟨⟨⟨hline.1.1, hline.1.2⟩, hne _ (by decide)⟩, hne _ (by decide)⟩

variable {headers : Headers} {name : HeaderName} {value : HeaderValue}

lemma Headers.check_some (h : headers.guard = .none) :
    headers.check name.text (some value.normalized) = .ok () := by
  have hvalue : checkForInvalidValueChars value.normalized := value.valid
  simp [Headers.check, checkHeaderNameForHttpTokenCodePoint, name.token, hvalue, h]

lemma Headers.check_none (h : headers.guard = .none) : headers.check name.text none = .ok () := by
  simp [Headers.check, checkHeaderNameForHttpTokenCodePoint, name.token, h]

end

/-! ### The values under each name -/

section

variable {list list' : HeaderList} {entry : Header} {name lowercaseName value : JsString}

@[simp] lemma valuesOf_append :
    valuesOf (list ++ list') name = valuesOf list name ++ valuesOf list' name := by
  simp [valuesOf]

lemma Header.hasName_iff : entry.hasName name ↔ byteLowerCase entry.1 = name := decide_eq_true_iff

lemma valuesOf_append_singleton (h : byteLowerCase entry.1 = lowercaseName) :
    valuesOf (list ++ [entry]) =
      Function.update (valuesOf list) lowercaseName (valuesOf list lowercaseName ++ [entry.2]) := by
  funext name
  by_cases hname : name = lowercaseName
  · subst hname
    simp [valuesOf, Header.hasName, h]
  · simp [valuesOf, Header.hasName, h, hname, Ne.symm hname]

lemma valuesOf_filter : valuesOf (list.filter fun entry => !entry.hasName lowercaseName) =
      Function.update (valuesOf list) lowercaseName [] := by
  funext name
  by_cases hname : name = lowercaseName
  · subst hname
    simp [valuesOf, filter_filter]
  · rw [Function.update_of_ne hname, valuesOf, filter_filter]
    refine congrArg (map _) (filter_congr fun entry _ => ?_)
    by_cases hhas : byteLowerCase entry.1 = name
    · simp [Header.hasName, hhas, hname]
    · simp [Header.hasName, hhas]

lemma setLoop_added : setLoop lowercaseName value list true =
      (list.filter fun entry => !entry.hasName lowercaseName, true) := by
  induction list with
  | nil => rfl
  | cons entry list ih =>
    by_cases hhas : entry.hasName lowercaseName
    · simp [setLoop, hhas, ih]
    · simp [setLoop, hhas, ih]

section

variable (h : ∀ entry ∈ list, ¬entry.hasName lowercaseName)

include h

lemma setLoop_of_forall_not : setLoop lowercaseName value list false = (list, false) := by
  induction list with
  | nil => rfl
  | cons entry list ih =>
    rw [forall_mem_cons] at h
    simp [setLoop, h.1, ih h.2]

lemma setLoop_append_cons (hentry : entry.hasName lowercaseName) :
    setLoop lowercaseName value (list ++ entry :: list') false =
      (list ++ (entry.1, value) :: list'.filter fun e : Header => !e.hasName lowercaseName,
        true) := by
  induction list with
  | nil => simp [setLoop, hentry, setLoop_added]
  | cons entry list ih =>
    rw [forall_mem_cons] at h
    simp [setLoop, h.1, ih h.2]

lemma valuesOf_eq_nil : valuesOf list lowercaseName = [] := by
  simpa [valuesOf] using fun entry value hmem => h (entry, value) hmem

lemma valuesOf_replace (hentry : entry.hasName lowercaseName) :
    valuesOf (list ++ (entry.1, value) :: list'.filter fun e : Header => !e.hasName lowercaseName) =
      Function.update (valuesOf (list ++ entry :: list')) lowercaseName [value] := by
  funext name
  rw [append_cons, valuesOf_append, valuesOf_append, valuesOf_filter]
  by_cases hname : name = lowercaseName
  · subst hname
    rw [valuesOf_eq_nil h]
    simp [valuesOf, Header.hasName, Header.hasName_iff.mp hentry]
  · have hentry' : byteLowerCase entry.1 ≠ name := Header.hasName_iff.mp hentry ▸ Ne.symm hname
    simp [valuesOf, Header.hasName, hname, hentry']

end

lemma valuesOf_set : valuesOf (if !(setLoop (byteLowerCase name) value list false).2 then
        (setLoop (byteLowerCase name) value list false).1 ++ [(name, value)]
      else (setLoop (byteLowerCase name) value list false).1) =
      Function.update (valuesOf list) (byteLowerCase name) [value] := by
  cases hfind : list.find? (Header.hasName (byteLowerCase name)) with
  | none =>
    have hnot := List.find?_eq_none.mp hfind
    rw [setLoop_of_forall_not hnot]
    simp [valuesOf_append_singleton rfl, valuesOf_eq_nil hnot]
  | some entry =>
    obtain ⟨hentry, before, after, rfl, hbefore⟩ := List.find?_eq_some_iff_append.mp hfind
    have hnot : ∀ e ∈ before, ¬Header.hasName (byteLowerCase name) e := by simpa using hbefore
    rw [setLoop_append_cons hnot hentry]
    exact valuesOf_replace hnot hentry

end

/-! ### Runs of valid calls -/

lemma byteLowerCase_storedName (list : HeaderList) (name : JsString) :
    byteLowerCase (storedName list name) = byteLowerCase name := by
  unfold storedName
  split
  · rename_i entry hfind
    exact Header.hasName_iff.mp (find?_some hfind)
  · rfl

namespace Headers

variable {headers : Headers} {name : HeaderName} {value : HeaderValue}

lemma append_eq (h : headers.guard = .none) :
    headers.append name.text value.text = .ok { headers with
      headerList := headers.headerList ++
        [(storedName headers.headerList name.text, value.normalized)] } := by
  rw [append, name.convert, value.convert]
  change (do headers.check _ _; _) = _
  rw [value.normalize, check_some h]
  rfl

lemma set_eq (h : headers.guard = .none) : headers.set name.text value.text =
      let done := setLoop name.lower value.normalized headers.headerList false
      .ok { headers with
        headerList := if !done.2 then done.1 ++ [(name.text, value.normalized)] else done.1 } := by
  rw [set, name.convert, value.convert]
  change (do headers.check _ _; _) = _
  rw [value.normalize, check_some h]
  rfl

lemma delete_eq (h : headers.guard = .none) : headers.delete name.text = .ok { headers with
      headerList := headers.headerList.filter fun entry => !entry.hasName name.lower } := by
  rw [delete, name.convert]
  change (do headers.check _ _; _) = _
  rw [check_none h]
  rfl

lemma get_eq (headers : Headers) (name : HeaderName) :
    headers.get name.text = .ok (joinValues (valuesOf headers.headerList name.lower)) := by
  have htoken : ¬(!checkHeaderNameForHttpTokenCodePoint name.text) = true := by
    simp [checkHeaderNameForHttpTokenCodePoint, name.token]
  rw [get, name.convert]
  exact if_neg htoken

lemma apply_eq_ok (h : headers.guard = .none) (op : HeaderOp) :
    ∃ headers', headers.apply op = .ok headers' ∧ headers'.guard = .none ∧
      valuesOf headers'.headerList = op.update (valuesOf headers.headerList) := by
  cases op with
  | append name value =>
    refine ⟨_, append_eq h, h, ?_⟩
    exact valuesOf_append_singleton (byteLowerCase_storedName _ _)
  | set name value => exact ⟨_, set_eq h, h, valuesOf_set⟩
  | delete name => exact ⟨_, delete_eq h, h, valuesOf_filter⟩

variable (ops : List HeaderOp)

def run : Except AnyError Headers := ops.foldlM apply {}

/-- A run of valid calls succeeds, and there is what was inserted. -/
theorem run_eq_ok : ∃ headers, run ops = .ok headers ∧ headers.guard = .none ∧
      valuesOf headers.headerList = insertedValues ops := by
  suffices hrun : ∀ start : Headers, start.guard = .none →
      ∃ headers, ops.foldlM apply start = .ok headers ∧ headers.guard = .none ∧
        valuesOf headers.headerList = ops.foldl HeaderOp.update (valuesOf start.headerList) from
    hrun {} rfl
  induction ops with
  | nil => exact fun start h => ⟨start, rfl, h, rfl⟩
  | cons op ops ih =>
    intro start h
    obtain ⟨next, hnext, hguard, hvalues⟩ := apply_eq_ok h op
    obtain ⟨headers, hrun, hheaders⟩ := ih next hguard
    refine ⟨headers, ?_, ?_⟩
    · rw [foldlM_cons, hnext]
      exact hrun
    · rwa [hvalues] at hheaders

end Headers

end Deno.Fetch
