import Deno.Core.Machine

/-!
# Records of HTTP requests

The record of a request is shared by the task of its connection and by JavaScript. Either side can
be done first, and the last reference puts the record back into the pool of the server. Both sides
run on one thread, so that what happens between two awaits is one step.
-/

namespace Deno

open Core

inductive HttpPanic where
  | alreadyCompleted
  | notLastReference
  | innerTaken
  | responsePartsTaken
  | responseBodySet
  | responseBodyDone
  | noCloseAfterFinish
  | unreachable
  deriving DecidableEq

abbrev Headers := List (String × String)

def Headers.clear (_ : Headers) : Headers := []

structure ResponseParts where
  status : ℕ
  headers : Headers
  deriving DecidableEq

inductive RequestBodyState where
  | incoming
  | resource
  deriving DecidableEq

/-- The body of a response. What it consists of does not matter here, nor how it is compressed. -/
inductive ResponseBytesInner where
  | empty
  | done
  | bytes
  | stream
  deriving DecidableEq

/-- What the stream of a body gives when it is polled. -/
inductive ResponseStreamResult where
  | pending
  | endOfStream
  | nonEmptyBuf
  | noData
  | error
  deriving DecidableEq

/-- The state of a request. A waker is kept as whether there is one. -/
structure HttpRecordInner where
  requestHeaders : Headers
  requestBody : Option RequestBodyState
  responseParts : Option ResponseParts
  responseReady : Bool
  responseWaker : Bool
  responseBody : ResponseBytesInner
  responseBodyFinished : Bool
  responseBodyWaker : Bool
  trailers : Option Headers
  beenDropped : Bool
  finished : Bool
  needsCloseAfterFinish : Bool
  deriving DecidableEq

/-- A record and the number of references to it. -/
structure HttpRecord where
  strong : ℕ
  inner : Option HttpRecordInner
  deriving DecidableEq

/-- Where the task of the connection is: it sends the record to JavaScript, awaits the response,
has made a response of the record, or is gone. -/
inductive Connection where
  | sending
  | waiting
  | responding
  | gone
  deriving DecidableEq

/-- Where JavaScript is: the record has not been sent, is in the channel, is held as an external,
the promise of the body is awaited (and has been polled), is resolved, or the external is gone. -/
inductive Script where
  | unsent
  | queued
  | holding
  | awaiting (polled : Bool)
  | resolved
  | done
  deriving DecidableEq

/-- A request: its record, as long as the request has a reference to it, the two sides, whether
their tasks have been woken, and how often the record has been recycled. -/
structure Request where
  record : Option HttpRecord
  conn : Connection
  script : Script
  responseWoken : Bool
  promiseWoken : Bool
  recycles : ℕ
  deriving DecidableEq

abbrev Pool := List (HttpRecord × Headers)

/-- What the code of a request can reach: the request, the pool of the server, and the number of
references to the server. -/
structure Scope extends Request where
  pool : Pool
  inflight : ℕ

def HttpRecordInner.fresh (requestHeaders responseHeaders : Headers) : HttpRecordInner where
  requestHeaders := requestHeaders
  requestBody := some .incoming
  responseParts := some ⟨200, responseHeaders⟩
  responseReady := false
  responseWaker := false
  responseBody := .empty
  responseBodyFinished := false
  responseBodyWaker := false
  trailers := none
  beenDropped := false
  finished := false
  needsCloseAfterFinish := false

/-- `HttpRecord::new`: a record of the pool is used again, with the headers that go with it. -/
def HttpRecord.new (pool : Pool) (requestHeaders : Headers) : HttpRecord × Pool :=
  match pool.getLast? with
  | some (record, headers) => ({ record with
      inner := some (.fresh requestHeaders headers) }, pool.dropLast)
  | none => (⟨1, some (.fresh requestHeaders [])⟩, pool)

namespace Scope

/-! ### References and state -/

variable (c : Scope)

def selfRef : Except HttpPanic HttpRecordInner :=
  match c.record with
  | some ⟨_, some inner⟩ => .ok inner
  | _ => .error .innerTaken

def setInner (inner : HttpRecordInner) : Scope :=
  { c with record := c.record.map fun r => { r with inner := some inner } }

def cloneRef : Scope :=
  { c with record := c.record.map fun r => { r with strong := r.strong + 1 } }

def dropRef : Scope :=
  match c.record with
  | some ⟨strong + 2, inner⟩ => { c with record := some ⟨strong + 1, inner⟩ }
  | _ => { c with record := none }

/-! ### The methods of a record -/

/-- The last reference puts the record into the pool, or frees it. -/
def recycle : Except HttpPanic Scope :=
  match c.record with
  | some ⟨1, some inner⟩ =>
    let target := 16 + c.inflight / 8
    let pool :=
      if target > c.pool.length then c.pool ++ [(⟨1, none⟩, inner.requestHeaders.clear)]
      else if target < c.pool.length - 8 then c.pool.take target
      else c.pool
    .ok { c with record := none, pool := pool, recycles := c.recycles + 1 }
  | some ⟨1, none⟩ => .error .innerTaken
  | some _ => .error .notLastReference
  | none => .error .innerTaken

def finish : Except HttpPanic Scope := do
  let inner ← c.selfRef
  let c := c.setInner { inner with responseBodyFinished := true, responseBodyWaker := false }
  let c := { c with promiseWoken := c.promiseWoken || inner.responseBodyWaker }
  if inner.needsCloseAfterFinish then return c.dropRef else c.recycle

def closeAfterFinish : Except HttpPanic Scope := do
  let inner ← c.selfRef
  if !inner.needsCloseAfterFinish then .error .noCloseAfterFinish
  else
    let c := c.setInner { inner with needsCloseAfterFinish := false }
    if !inner.finished then c.recycle else return c.dropRef

/-- The task of the connection is dropped while it holds the record. -/
def cancel : Except HttpPanic Scope := do
  let inner ← c.selfRef
  if inner.responseReady then c.finish
  else return (c.setInner { inner with beenDropped := true, requestBody := none }).dropRef

def complete : Except HttpPanic Scope := do
  let inner ← c.selfRef
  if inner.responseReady then .error .alreadyCompleted
  else if inner.beenDropped then c.finish
  else
    let c := c.setInner { inner with responseReady := true, responseWaker := false }
    return { c with responseWoken := c.responseWoken || inner.responseWaker }.dropRef

def takeResponseBody : Except HttpPanic Scope := do
  let inner ← c.selfRef
  if inner.responseBody = .done then .error .responseBodyDone
  else return c.setInner { inner with responseBody := .done }

/-- `response_parts`, and what is done with them. -/
def modifyResponseParts (f : ResponseParts → ResponseParts) : Except HttpPanic Scope := do
  let inner ← c.selfRef
  match inner.responseParts with
  | some parts => return c.setInner { inner with responseParts := some (f parts) }
  | none => .error .responsePartsTaken

def setResponseBody (body : ResponseBytesInner) : Except HttpPanic Scope := do
  let inner ← c.selfRef
  if inner.responseBody ≠ .empty then .error .responseBodySet
  else return c.setInner { inner with responseBody := body }

def intoResponse : Except HttpPanic Scope := do
  let inner ← c.selfRef
  match inner.responseParts with
  | some _ => return { c.setInner { inner with responseParts := none } with conn := .responding }
  | none => .error .responsePartsTaken

variable (status : ℕ)

/-- An invalid status is ignored. -/
def setStatus : Except HttpPanic Scope :=
  if 100 ≤ status ∧ status < 1000 then
    c.modifyResponseParts fun parts => { parts with status := status }
  else .ok c

/-! ### The ops of JavaScript -/

variable (compress : Headers → Headers → Headers)

/-- `set_response`. What compression does to the headers of the response depends on those of the
request. -/
def setResponse (body : ResponseBytesInner) : Except HttpPanic Scope := do
  let inner ← c.selfRef
  if inner.beenDropped then c.complete
  else
    let c ← c.modifyResponseParts fun parts =>
      { parts with headers := compress inner.requestHeaders parts.headers }
    let c ← c.setResponseBody body
    let c ← c.setStatus status
    c.complete

def setPromiseComplete : Except HttpPanic Scope := do
  let c ← c.setStatus status
  c.complete

/-- `op_http_set_response_body_text` and `op_http_set_response_body_bytes`. -/
def setResponseBodyBytes (isEmpty : Bool) (status : ℕ)
    (compress : Headers → Headers → Headers) : Except HttpPanic Scope :=
  if isEmpty then c.setPromiseComplete status else c.setResponse status compress .bytes

/-- `op_http_set_response_body_resource`, up to its await. -/
def setResponseBodyResource : Except HttpPanic Scope := do
  let c := c.cloneRef
  let inner ← c.selfRef
  let c := (c.setInner { inner with needsCloseAfterFinish := true }).cloneRef
  c.setResponse status compress .stream

/-- Poll `response_body_finished`; the op ends when it is ready. -/
def pollPromise : Except HttpPanic Scope := do
  let inner ← c.selfRef
  if inner.responseBodyFinished then return { c.dropRef with script := .resolved }
  else return { c.setInner { inner with responseBodyWaker := true } with
    script := .awaiting true, promiseWoken := false }

/-! ### The task of the connection -/

/-- Poll `response_ready`; when it is, the record becomes the response. -/
def pollReady : Except HttpPanic Scope := do
  let inner ← c.selfRef
  if inner.responseReady then c.intoResponse
  else return { c.setInner { inner with responseWaker := true } with
    conn := .waiting, responseWoken := false }

def isEndStream (inner : HttpRecordInner) : Bool :=
  (inner.responseBody = .done || inner.responseBody = .empty) && inner.trailers.isNone

/-- `poll_frame`, with what the stream gives, if there is one. Without data it polls again. -/
def pollFrame (result : ResponseStreamResult) : Except HttpPanic Scope := do
  let inner ← c.selfRef
  let takeTrailers := c.setInner { inner with trailers := none }
  match inner.responseBody with
  | .done | .empty => if inner.trailers.isSome then return takeTrailers else .error .unreachable
  | .bytes => c.takeResponseBody
  | .stream =>
    match result with
    | .endOfStream => if inner.trailers.isSome then return takeTrailers else c.takeResponseBody
    | _ => return c

/-- The task of the connection, or its response, is dropped. The reference that is being sent is
dropped before the guard. -/
def dropConnection : Except HttpPanic Scope :=
  match c.conn with
  | .sending => { c.dropRef with conn := .gone }.cancel
  | .waiting => { c with conn := .gone }.cancel
  | .responding => { c with conn := .gone }.finish
  | .gone => .ok c

end Scope

/-! ### The steps of a request -/

inductive RequestAction where
  | sent
  | pollReady
  | pollFrame (result : ResponseStreamResult)
  | dropConnection
  | receive
  | readRequest
  | readRequestBody
  | setResponseHeaders (headers : Headers)
  | setResponseTrailers (trailers : Headers)
  | setResponseBodyBytes (isEmpty : Bool) (status : ℕ) (compress : Headers → Headers → Headers)
  | setPromiseComplete (status : ℕ)
  | setResponseBodyResource (status : ℕ) (compress : Headers → Headers → Headers)
  | pollPromise
  | closeAfterFinish

def Script.hasExternal : Script → Bool
  | .holding | .awaiting _ | .resolved => true
  | _ => false

/-- One step. What a side does not do in its place is no step at all. -/
def Scope.act (c : Scope) : RequestAction → Except HttpPanic Scope
  | .sent =>
    if c.conn = .sending then { c with script := .queued }.pollReady else .ok c
  | .pollReady => if c.conn = .waiting then c.pollReady else .ok c
  | .pollFrame result =>
    -- a body at its end is not polled
    if c.conn = .responding then do
      let inner ← c.selfRef
      if isEndStream inner then return c else c.pollFrame result
    else .ok c
  | .dropConnection => c.dropConnection
  | .receive => if c.script = .queued then .ok { c with script := .holding } else .ok c
  | .readRequest =>
    if c.script.hasExternal then do
      let _ ← c.selfRef
      return c
    else .ok c
  | .readRequestBody =>
    if c.script.hasExternal then do
      let inner ← c.selfRef
      return c.setInner { inner with requestBody := some .resource }
    else .ok c
  | .setResponseHeaders headers =>
    if c.script = .holding then
      c.modifyResponseParts fun parts => { parts with headers := parts.headers ++ headers }
    else .ok c
  | .setResponseTrailers trailers =>
    if c.script.hasExternal then do
      let inner ← c.selfRef
      return c.setInner { inner with trailers := some trailers }
    else .ok c
  | .setResponseBodyBytes isEmpty status compress =>
    if c.script = .holding then
      { c with script := .done }.setResponseBodyBytes isEmpty status compress
    else .ok c
  | .setPromiseComplete status =>
    if c.script = .holding then { c with script := .done }.setPromiseComplete status else .ok c
  | .setResponseBodyResource status compress =>
    if c.script = .holding then
      { c with script := .awaiting false }.setResponseBodyResource status compress
    else .ok c
  | .pollPromise =>
    match c.script with
    | .awaiting _ => c.pollPromise
    | _ => .ok c
  | .closeAfterFinish =>
    if c.script = .resolved then { c with script := .done }.closeAfterFinish else .ok c

/-! ### The server -/

/-- A server with its requests. A panic is kept. -/
structure HttpServer where
  requests : List Request
  pool : Pool
  inflight : ℕ
  panicked : Option HttpPanic

inductive HttpServerAction where
  | connect (requestHeaders : Headers)
  | load (inflight : ℕ)
  | request (index : ℕ) (action : RequestAction)

namespace HttpServer

def empty : HttpServer := ⟨[], [], 1, none⟩

/-- A request begins with its record, and a reference on the way to JavaScript. -/
def accept (record : HttpRecord) : Request :=
  ⟨some { record with strong := record.strong + 1 }, .sending, .unsent, false, false, 0⟩

def step (s : HttpServer) : HttpServerAction → HttpServer
  | .connect requestHeaders =>
    let (record, pool) := HttpRecord.new s.pool requestHeaders
    { s with requests := s.requests ++ [accept record], pool := pool }
  | .load inflight => { s with inflight := inflight }
  | .request index action =>
    match s.requests[index]? with
    | none => s
    | some request =>
      match Scope.act ⟨request, s.pool, s.inflight⟩ action with
      | .ok c => { s with requests := s.requests.set index c.toRequest, pool := c.pool }
      | .error e => { s with panicked := some e }

def machine : Machine HttpServer HttpServerAction := ⟨step⟩

end HttpServer

end Deno
