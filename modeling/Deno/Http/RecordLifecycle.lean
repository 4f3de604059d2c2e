import Deno.Http.Record

/-!
# The lifecycle of a record

At each point of the two sides, the number of references is the number of those that the sides
hold, and the flags of the record say who is to recycle it.
-/

namespace Deno

open Core HttpRecord

/-- The records in a pool: the pool has the only reference, and nothing is left of a request. -/
def Pool.Clean (pool : Pool) : Prop := ∀ entry ∈ pool, entry = (⟨1, none⟩, [])

/-! ### What the methods do -/

def ResponseParts.withStatus (parts : ResponseParts) (status : ℕ) : ResponseParts :=
  if 100 ≤ status ∧ status < 1000 then { parts with status := status } else parts

namespace Scope

variable {c : Scope} {n : ℕ} {inner : HttpRecordInner} {parts : ResponseParts}

lemma recycle_eq (hc : c.record = some ⟨1, some inner⟩) (hclean : c.pool.Clean) :
    ∃ pool, c.recycle = .ok { c with record := none, pool, recycles := c.recycles + 1 } ∧
      pool.Clean := by
  rw [recycle, hc]
  refine ⟨_, rfl, ?_⟩
  split_ifs
  · exact List.forall_mem_append.mpr ⟨hclean, List.forall_mem_singleton.mpr rfl⟩
  · exact fun entry hentry => hclean entry (List.mem_of_mem_take hentry)
  · exact hclean

lemma setInner_eq (hc : c.record = some ⟨n, some inner⟩) (inner' : HttpRecordInner) :
    c.setInner inner' = { c with record := some ⟨n, some inner'⟩ } := by
  rw [setInner, hc]
  rfl

lemma selfRef_bind (hc : c.record = some ⟨n, some inner⟩)
    (f : HttpRecordInner → Except HttpPanic Scope) : (c.selfRef >>= f) = f inner := by
  rw [selfRef, hc]
  rfl

section

variable (hc : c.record = some ⟨n + 2, some inner⟩)

include hc

lemma finish_eq (hneeds : inner.needsCloseAfterFinish = true) : c.finish = .ok { c with
      record := some ⟨n + 1, some { inner with
        responseBodyFinished := true, responseBodyWaker := false }⟩
      promiseWoken := c.promiseWoken || inner.responseBodyWaker } := by
  simp [finish, selfRef_bind hc, setInner_eq hc, hneeds]
  rfl

/-- A response that is not there yet: the record stays for JavaScript. -/
lemma cancel_eq (hready : inner.responseReady = false) : c.cancel = .ok { c with
      record := some ⟨n + 1, some { inner with beenDropped := true, requestBody := none }⟩ } := by
  simp [cancel, selfRef_bind hc, setInner_eq hc, hready]
  rfl

lemma complete_eq (hready : inner.responseReady = false) (hdropped : inner.beenDropped = false) :
    c.complete = .ok { c with
      record := some ⟨n + 1, some { inner with responseReady := true, responseWaker := false }⟩
      responseWoken := c.responseWoken || inner.responseWaker } := by
  simp [complete, selfRef_bind hc, setInner_eq hc, hready, hdropped]
  rfl

lemma pollPromise_finished (hbody : inner.responseBodyFinished = true) :
    c.pollPromise = .ok { c with record := some ⟨n + 1, some inner⟩, script := .resolved } := by
  simp [pollPromise, selfRef_bind hc, dropRef, hc, hbody]
  rfl

end

section

variable (hc : c.record = some ⟨n, some inner⟩)

include hc

lemma finish_recycle (hneeds : inner.needsCloseAfterFinish = false) : c.finish = recycle { c with
      record := some ⟨n, some { inner with
        responseBodyFinished := true, responseBodyWaker := false }⟩
      promiseWoken := c.promiseWoken || inner.responseBodyWaker } := by
  simp [finish, selfRef_bind hc, setInner_eq hc, hneeds]

lemma closeAfterFinish_eq (hneeds : inner.needsCloseAfterFinish = true)
    (hfinished : inner.finished = false) :
    c.closeAfterFinish = recycle { c with
      record := some ⟨n, some { inner with needsCloseAfterFinish := false }⟩ } := by
  simp [closeAfterFinish, selfRef_bind hc, setInner_eq hc, hneeds, hfinished]

lemma complete_dropped (hready : inner.responseReady = false)
    (hdropped : inner.beenDropped = true) : c.complete = c.finish := by
  simp [complete, selfRef_bind hc, hready, hdropped]

/-- If nobody else knows the record, it is freed. -/
lemma cancel_last (hlast : n = 1) (hready : inner.responseReady = false) :
    c.cancel = .ok { c with record := none } := by
  subst hlast
  simp [cancel, selfRef_bind hc, setInner_eq hc, hready]
  rfl

lemma dropConnection_ready (hready : inner.responseReady = true)
    (hconn : c.conn = .waiting ∨ c.conn = .responding) :
    c.act .dropConnection = { c with conn := .gone }.finish := by
  rcases hconn with hconn | hconn
  · simp [act, dropConnection, hconn, cancel, selfRef, hc, bind, Except.bind, hready]
  · simp [act, dropConnection, hconn]

lemma modifyResponseParts_eq (hparts : inner.responseParts = some parts)
    (f : ResponseParts → ResponseParts) :
    c.modifyResponseParts f = .ok { c with
      record := some ⟨n, some { inner with responseParts := some (f parts) }⟩ } := by
  simp [modifyResponseParts, selfRef_bind hc, setInner_eq hc, hparts]
  rfl

lemma setStatus_eq (hparts : inner.responseParts = some parts) (status : ℕ) :
    c.setStatus status = .ok { c with
      record := some ⟨n, some { inner with responseParts := some (parts.withStatus status) }⟩ } := by
  unfold setStatus ResponseParts.withStatus
  split_ifs
  · exact modifyResponseParts_eq hc hparts _
  · rw [← hparts, ← hc]

lemma setResponseBody_eq (hbody : inner.responseBody = .empty) (body : ResponseBytesInner) :
    c.setResponseBody body = .ok { c with
      record := some ⟨n, some { inner with responseBody := body }⟩ } := by
  simp [setResponseBody, selfRef_bind hc, setInner_eq hc, hbody]
  rfl

lemma setResponse_dropped (hdropped : inner.beenDropped = true) (status : ℕ)
    (compress : Headers → Headers → Headers) (body : ResponseBytesInner) :
    c.setResponse status compress body = c.complete := by
  simp [setResponse, selfRef_bind hc, hdropped]

lemma setResponse_eq (hdropped : inner.beenDropped = false)
    (hparts : inner.responseParts = some parts) (hbody : inner.responseBody = .empty) (status : ℕ)
    (compress : Headers → Headers → Headers) (body : ResponseBytesInner) :
    c.setResponse status compress body = complete { c with
      record := some ⟨n, some { inner with
        responseBody := body
        responseParts := some (ResponseParts.withStatus
          ⟨parts.status, compress inner.requestHeaders parts.headers⟩ status) }⟩ } := by
  simp only [setResponse, selfRef, hc, bind, Except.bind]
  rw [if_neg (by simp [hdropped]), modifyResponseParts_eq hc hparts]
  dsimp only
  rw [setResponseBody_eq rfl]
  · dsimp only
    rw [setStatus_eq rfl rfl]
  · exact hbody

lemma setPromiseComplete_eq (hparts : inner.responseParts = some parts) (status : ℕ) :
    c.setPromiseComplete status = complete { c with
      record := some ⟨n, some { inner with responseParts := some (parts.withStatus status) }⟩ } := by
  simp [setPromiseComplete, setStatus_eq hc hparts, bind, Except.bind]

lemma pollReady_pending (hready : inner.responseReady = false) : c.pollReady = .ok { c with
      record := some ⟨n, some { inner with responseWaker := true }⟩
      conn := .waiting, responseWoken := false } := by
  simp [pollReady, selfRef_bind hc, setInner_eq hc, hready]
  rfl

lemma pollReady_ready (hready : inner.responseReady = true) (hparts : inner.responseParts ≠ none) :
    c.pollReady = .ok { c with
      record := some ⟨n, some { inner with responseParts := none }⟩, conn := .responding } := by
  obtain ⟨parts, hparts⟩ := Option.ne_none_iff_exists'.mp hparts
  simp [pollReady, intoResponse, selfRef_bind hc, setInner_eq hc, hready, hparts]
  rfl

lemma pollPromise_pending (hbody : inner.responseBodyFinished = false) :
    c.pollPromise = .ok { c with
      record := some ⟨n, some { inner with responseBodyWaker := true }⟩
      script := .awaiting true, promiseWoken := false } := by
  simp [pollPromise, selfRef_bind hc, setInner_eq hc, hbody]
  rfl

end

/-- The op keeps a reference of its own, besides that of the external. -/
lemma setResponseBodyResource_eq (hc : c.record = some ⟨n, some inner⟩) (status : ℕ)
    (compress : Headers → Headers → Headers) :
    c.setResponseBodyResource status compress = setResponse { c with
      record := some ⟨n + 2, some { inner with needsCloseAfterFinish := true }⟩ } status compress
        .stream := by
  simp only [setResponseBodyResource, cloneRef, selfRef, setInner, hc, bind, Except.bind]
  rfl

/-- Only the body and the trailers change when a response is polled. -/
lemma act_pollFrame {script : Script} {w p : Bool} {recycles inflight : ℕ} {pool : Pool}
    (result : ResponseStreamResult) :
    ∃ body trailers, act
        ⟨⟨some ⟨n, some inner⟩, .responding, script, w, p, recycles⟩, pool, inflight⟩
        (.pollFrame result) =
      .ok ⟨⟨some ⟨n, some { inner with responseBody := body, trailers := trailers }⟩, .responding,
        script, w, p, recycles⟩, pool, inflight⟩ := by
  obtain ⟨_, _, _, _, _, body, _, _, trailers, _, _, _⟩ := inner
  cases body with
  | done | empty => cases trailers <;> exact ⟨_, _, rfl⟩
  | bytes => exact ⟨_, _, rfl⟩
  | stream =>
    cases result with
    | endOfStream => cases trailers <;> exact ⟨_, _, rfl⟩
    | _ => exact ⟨_, _, rfl⟩

end Scope

/-! ### The phases of a request -/

/-- The state of a record before the response is complete. -/
structure HttpRecordInner.Open (inner : HttpRecordInner) : Prop where
  responseReady : inner.responseReady = false
  needsCloseAfterFinish : inner.needsCloseAfterFinish = false
  responseBody : inner.responseBody = .empty
  responseParts : inner.responseParts ≠ none
  finished : inner.finished = false
  responseBodyFinished : inner.responseBodyFinished = false

/-- The state of a record whose response is complete, and not dropped. -/
structure HttpRecordInner.Ready (inner : HttpRecordInner) (conn : Connection) (w : Bool) : Prop where
  place : conn = .waiting ∨ conn = .responding
  responseReady : inner.responseReady = true
  responseParts : conn = .waiting → inner.responseParts ≠ none
  woken : conn = .waiting → w = true
  finished : inner.finished = false

variable {inner : HttpRecordInner}

lemma HttpRecordInner.Ready.intoResponse {conn : Connection} {w : Bool}
    (hready : inner.Ready conn w) : { inner with responseParts := none }.Ready .responding w where
  place := .inr rfl
  responseReady := hready.responseReady
  responseParts := nofun
  woken := nofun
  finished := hready.finished

/-- Where a request can be: the two sides, the references that they hold together, and what is
known of the record. -/
inductive Lifecycle : Request → Prop where
  | sending {inner : HttpRecordInner} {w p : Bool} (hopen : inner.Open)
      (hdropped : inner.beenDropped = false) :
      Lifecycle ⟨some ⟨2, some inner⟩, .sending, .unsent, w, p, 0⟩
  | waiting {inner : HttpRecordInner} {script : Script} {w p : Bool}
      (hscript : script = .queued ∨ script = .holding) (hopen : inner.Open)
      (hdropped : inner.beenDropped = false) (hwaker : inner.responseWaker = true) :
      Lifecycle ⟨some ⟨2, some inner⟩, .waiting, script, w, p, 0⟩
  | cancelled {inner : HttpRecordInner} {script : Script} {w p : Bool}
      (hscript : script = .queued ∨ script = .holding) (hopen : inner.Open)
      (hdropped : inner.beenDropped = true) :
      Lifecycle ⟨some ⟨1, some inner⟩, .gone, script, w, p, 0⟩
  | responding {inner : HttpRecordInner} {conn : Connection} {w p : Bool}
      (hready : inner.Ready conn w) (hneeds : inner.needsCloseAfterFinish = false) :
      Lifecycle ⟨some ⟨1, some inner⟩, conn, .done, w, p, 0⟩
  | streaming {inner : HttpRecordInner} {conn : Connection} {polled w p : Bool}
      (hready : inner.Ready conn w) (hneeds : inner.needsCloseAfterFinish = true)
      (hunfinished : inner.responseBodyFinished = false)
      (hwaker : polled = true → inner.responseBodyWaker = true) :
      Lifecycle ⟨some ⟨3, some inner⟩, conn, .awaiting polled, w, p, 0⟩
  | finishing {inner : HttpRecordInner} {polled w p : Bool}
      (hneeds : inner.needsCloseAfterFinish = true) (hfinished : inner.finished = false)
      (hbody : inner.responseBodyFinished = true) (hwoken : polled = true → p = true) :
      Lifecycle ⟨some ⟨2, some inner⟩, .gone, .awaiting polled, w, p, 0⟩
  | resolved {inner : HttpRecordInner} {w p : Bool}
      (hneeds : inner.needsCloseAfterFinish = true) (hfinished : inner.finished = false) :
      Lifecycle ⟨some ⟨1, some inner⟩, .gone, .resolved, w, p, 0⟩
  | ended {w p : Bool} : Lifecycle ⟨none, .gone, .done, w, p, 1⟩
  | neverSent {w p : Bool} : Lifecycle ⟨none, .gone, .unsent, w, p, 0⟩

/-- When the connection is gone, the task that awaits the end of the body has been woken, and its
next poll ends the op. -/
def Request.PromiseResolves (request : Request) : Prop :=
  ∀ polled, request.script = .awaiting polled → request.conn = .gone →
    (polled = true → request.promiseWoken = true) ∧
    ∀ pool inflight, ∃ c, Scope.pollPromise ⟨request, pool, inflight⟩ = .ok c ∧ c.script = .resolved

/-! ### One step -/

open Scope

/-- A step that does not panic, and leaves the request and the pool as they should be. -/
def Safe (result : Except HttpPanic Scope) : Prop :=
  ∃ c, result = .ok c ∧ Lifecycle c.toRequest ∧ c.pool.Clean

lemma Safe.congr {result result' : Except HttpPanic Scope} (h : result = result')
    (hsafe : Safe result') : Safe result := h ▸ hsafe

lemma Safe.recycle {c : Scope} (hc : c.record = some ⟨1, some inner⟩)
    (hclean : c.pool.Clean) (hconn : c.conn = .gone) (hscript : c.script = .done)
    (hrecycles : c.recycles = 0) : Safe c.recycle := by
  obtain ⟨pool, hrecycle, hclean'⟩ := recycle_eq hc hclean
  obtain ⟨⟨_, _, _, _, _, _⟩, _, _⟩ := c
  cases hconn
  cases hscript
  cases hrecycles
  exact ⟨_, hrecycle, .ended, hclean'⟩

namespace Lifecycle

variable {request : Request} {pool : Pool} (h : Lifecycle request) (hclean : pool.Clean)
variable {inflight : ℕ}

include h hclean

/-- What a side does only in its place. -/
lemma safe_guarded {place : Prop} [Decidable place] {result : Except HttpPanic Scope}
    (hresult : place → Safe result) :
    Safe (if place then result else .ok ⟨request, pool, inflight⟩) := by
  split_ifs with hplace
  · exact hresult hplace
  · exact ⟨_, rfl, h, hclean⟩

/-! #### The connection -/

lemma safe_sent : Safe (act ⟨request, pool, inflight⟩ .sent) := by
  refine safe_guarded h hclean fun hconn => ?_
  cases h with
  | sending hopen hdropped =>
    exact ⟨_, pollReady_pending rfl hopen.responseReady, .waiting (.inl rfl)
      { hopen with } hdropped rfl, hclean⟩
  | responding hready | streaming hready => rcases hready.place with rfl | rfl <;> cases hconn
  | _ => cases hconn

lemma safe_pollReady : Safe (act ⟨request, pool, inflight⟩ .pollReady) := by
  refine safe_guarded h hclean fun hconn => ?_
  cases h with
  | waiting hscript hopen hdropped hwaker =>
    exact ⟨_, pollReady_pending rfl hopen.responseReady, .waiting hscript
      { hopen with } hdropped rfl, hclean⟩
  | responding hready hneeds =>
    exact ⟨_, pollReady_ready rfl hready.responseReady (hready.responseParts hconn),
      .responding hready.intoResponse hneeds, hclean⟩
  | streaming hready hneeds hunfinished hwaker =>
    exact ⟨_, pollReady_ready rfl hready.responseReady (hready.responseParts hconn),
      .streaming hready.intoResponse hneeds hunfinished hwaker, hclean⟩
  | _ => cases hconn

lemma safe_pollFrame (result : ResponseStreamResult) :
    Safe (act ⟨request, pool, inflight⟩ (.pollFrame result)) := by
  by_cases hconn : request.conn = .responding
  · cases h with
    | responding hready hneeds =>
      cases hconn
      obtain ⟨body, trailers, hact⟩ := act_pollFrame result
      exact ⟨_, hact, .responding ⟨.inr rfl, hready.2, nofun, nofun, hready.5⟩ hneeds, hclean⟩
    | streaming hready hneeds hunfinished hwaker =>
      cases hconn
      obtain ⟨body, trailers, hact⟩ := act_pollFrame result
      exact ⟨_, hact, .streaming ⟨.inr rfl, hready.2, nofun, nofun, hready.5⟩ hneeds hunfinished
        hwaker, hclean⟩
    | _ => cases hconn
  · rw [act, if_neg hconn]
    exact ⟨_, rfl, h, hclean⟩

lemma safe_dropConnection : Safe (act ⟨request, pool, inflight⟩ .dropConnection) := by
  have hlife := h
  cases h with
  | sending hopen =>
    -- both references go, and with them the record
    exact ⟨_, cancel_last rfl rfl hopen.responseReady, .neverSent, hclean⟩
  | waiting hscript hopen =>
    exact ⟨_, cancel_eq rfl hopen.responseReady, .cancelled hscript { hopen with } rfl, hclean⟩
  | responding hready hneeds =>
    exact .congr ((dropConnection_ready rfl hready.responseReady hready.place).trans
      (finish_recycle rfl hneeds)) (.recycle rfl hclean rfl rfl rfl)
  | streaming hready hneeds hunfinished hwaker =>
    rw [dropConnection_ready rfl hready.responseReady hready.place]
    refine ⟨_, finish_eq rfl hneeds, .finishing hneeds hready.finished rfl ?_, hclean⟩
    intro hpolled
    rw [hwaker hpolled, Bool.or_true]
  | _ => exact ⟨_, rfl, hlife, hclean⟩

/-! #### JavaScript -/

lemma safe_receive : Safe (act ⟨request, pool, inflight⟩ .receive) := by
  refine safe_guarded h hclean fun hscript => ?_
  cases h with
  | waiting _ hopen hdropped hwaker =>
    exact ⟨_, rfl, .waiting (.inr rfl) hopen hdropped hwaker, hclean⟩
  | cancelled _ hopen hdropped => exact ⟨_, rfl, .cancelled (.inr rfl) hopen hdropped, hclean⟩
  | _ => cases hscript

omit hclean in
/-- An external is that of a record in use, whose body and trailers can be set. -/
lemma exists_inner (hexternal : request.script.hasExternal = true) :
    ∃ n inner, request.record = some ⟨n, some inner⟩ ∧ ∀ body trailers, Lifecycle { request with
        record := some ⟨n, some { inner with requestBody := body, trailers := trailers }⟩ } := by
  cases h with
  | waiting hscript hopen hdropped hwaker =>
    exact ⟨_, _, rfl, fun _ _ => .waiting hscript { hopen with } hdropped hwaker⟩
  | cancelled hscript hopen hdropped =>
    exact ⟨_, _, rfl, fun _ _ => .cancelled hscript { hopen with } hdropped⟩
  | streaming hready hneeds hunfinished hwaker =>
    exact ⟨_, _, rfl, fun _ _ => .streaming { hready with } hneeds hunfinished hwaker⟩
  | finishing hneeds hfinished hbody hwoken =>
    exact ⟨_, _, rfl, fun _ _ => .finishing hneeds hfinished hbody hwoken⟩
  | resolved hneeds hfinished => exact ⟨_, _, rfl, fun _ _ => .resolved hneeds hfinished⟩
  | _ => cases hexternal

lemma safe_readRequest : Safe (act ⟨request, pool, inflight⟩ .readRequest) := by
  refine safe_guarded h hclean fun hexternal => ?_
  obtain ⟨n, inner, hrecord, -⟩ := exists_inner h hexternal
  obtain ⟨record, conn, script, w, p, recycles⟩ := request
  cases hrecord
  exact ⟨_, rfl, h, hclean⟩

lemma safe_readRequestBody : Safe (act ⟨request, pool, inflight⟩ .readRequestBody) := by
  refine safe_guarded h hclean fun hexternal => ?_
  obtain ⟨n, inner, hrecord, hset⟩ := exists_inner h hexternal
  obtain ⟨record, conn, script, w, p, recycles⟩ := request
  cases hrecord
  exact ⟨_, rfl, hset (some .resource) inner.trailers, hclean⟩

lemma safe_setResponseTrailers (trailers : Headers) :
    Safe (act ⟨request, pool, inflight⟩ (.setResponseTrailers trailers)) := by
  refine safe_guarded h hclean fun hexternal => ?_
  obtain ⟨n, inner, hrecord, hset⟩ := exists_inner h hexternal
  obtain ⟨record, conn, script, w, p, recycles⟩ := request
  cases hrecord
  exact ⟨_, rfl, hset inner.requestBody (some trailers), hclean⟩

omit hclean in
/-- Before JavaScript answers, the connection waits or is gone. -/
lemma of_holding (hscript : request.script = .holding) :
    ∃ n inner parts conn w p, request = ⟨some ⟨n, some inner⟩, conn, .holding, w, p, 0⟩ ∧
      inner.Open ∧ inner.responseParts = some parts ∧
      (n = 2 ∧ conn = .waiting ∧ inner.beenDropped = false ∧ inner.responseWaker = true ∨
        n = 1 ∧ conn = .gone ∧ inner.beenDropped = true) := by
  cases h with
  | waiting _ hopen hdropped hwaker =>
    cases hscript
    obtain ⟨parts, hparts⟩ := Option.ne_none_iff_exists'.mp hopen.responseParts
    exact ⟨_, _, parts, _, _, _, rfl, hopen, hparts, .inl ⟨rfl, rfl, hdropped, hwaker⟩⟩
  | cancelled _ hopen hdropped =>
    cases hscript
    obtain ⟨parts, hparts⟩ := Option.ne_none_iff_exists'.mp hopen.responseParts
    exact ⟨_, _, parts, _, _, _, rfl, hopen, hparts, .inr ⟨rfl, rfl, hdropped⟩⟩
  | _ => cases hscript

lemma safe_setResponseHeaders (headers : Headers) :
    Safe (act ⟨request, pool, inflight⟩ (.setResponseHeaders headers)) := by
  refine safe_guarded h hclean fun hscript => ?_
  obtain ⟨n, inner, parts, conn, w, p, rfl, hopen, hparts, hconn⟩ := of_holding h hscript
  have hopen' : { inner with
      responseParts := some { parts with headers := parts.headers ++ headers } }.Open :=
    ⟨hopen.1, hopen.2, hopen.3, Option.some_ne_none _, hopen.5, hopen.6⟩
  refine ⟨_, modifyResponseParts_eq rfl hparts _, ?_, hclean⟩
  rcases hconn with ⟨rfl, rfl, hdropped, hwaker⟩ | ⟨rfl, rfl, hdropped⟩
  · exact .waiting (.inr rfl) hopen' hdropped hwaker
  · exact .cancelled (.inr rfl) hopen' hdropped

omit h in
lemma safe_complete {inner : HttpRecordInner} {n : ℕ} {conn : Connection} {w p : Bool}
    (hready : inner.responseReady = false) (hneeds : inner.needsCloseAfterFinish = false)
    (hparts : inner.responseParts ≠ none) (hfinished : inner.finished = false)
    (hconn : n = 2 ∧ conn = .waiting ∧ inner.beenDropped = false ∧ inner.responseWaker = true ∨
      n = 1 ∧ conn = .gone ∧ inner.beenDropped = true) :
    Safe (complete ⟨⟨some ⟨n, some inner⟩, conn, .done, w, p, 0⟩, pool, inflight⟩) := by
  rcases hconn with ⟨rfl, rfl, hdropped, hwaker⟩ | ⟨rfl, rfl, hdropped⟩
  · refine ⟨_, complete_eq rfl hready hdropped,
      .responding ⟨.inl rfl, rfl, fun _ => hparts, ?_, hfinished⟩ hneeds, hclean⟩
    intro
    rw [hwaker, Bool.or_true]
  · exact .congr ((complete_dropped rfl hready hdropped).trans (finish_recycle rfl hneeds))
      (.recycle rfl hclean rfl rfl rfl)

variable (status : ℕ)

lemma safe_setPromiseComplete (hscript : request.script = .holding) :
    Safe (setPromiseComplete ⟨{ request with script := .done }, pool, inflight⟩ status) := by
  obtain ⟨n, inner, parts, conn, w, p, rfl, hopen, hparts, hconn⟩ := of_holding h hscript
  refine .congr (setPromiseComplete_eq rfl hparts status) (safe_complete hclean ?_ ?_
    (Option.some_ne_none _) ?_ hconn)
  · exact hopen.responseReady
  · exact hopen.needsCloseAfterFinish
  · exact hopen.finished

variable (compress : Headers → Headers → Headers)

lemma safe_setResponse (hscript : request.script = .holding) :
    Safe (setResponse ⟨{ request with script := .done }, pool, inflight⟩ status compress .bytes) := by
  obtain ⟨n, inner, parts, conn, w, p, rfl, hopen, hparts, hconn⟩ := of_holding h hscript
  cases hdropped : inner.beenDropped with
  | true =>
    exact .congr (setResponse_dropped rfl hdropped status compress .bytes)
      (safe_complete hclean hopen.1 hopen.2 hopen.4 hopen.5 hconn)
  | false =>
    refine .congr (setResponse_eq rfl hdropped hparts hopen.responseBody status compress .bytes)
      (safe_complete hclean ?_ ?_ (Option.some_ne_none _) ?_ hconn)
    · exact hopen.responseReady
    · exact hopen.needsCloseAfterFinish
    · exact hopen.finished

lemma safe_setResponseBodyResource :
    Safe (act ⟨request, pool, inflight⟩ (.setResponseBodyResource status compress)) := by
  refine safe_guarded h hclean fun hscript => ?_
  obtain ⟨n, inner, parts, conn, w, p, rfl, hopen, hparts, hconn⟩ := of_holding h hscript
  refine .congr (setResponseBodyResource_eq rfl status compress) ?_
  rcases hconn with ⟨rfl, rfl, hdropped, hwaker⟩ | ⟨rfl, rfl, hdropped⟩
  · refine .congr (setResponse_eq rfl ?_ (by exact hparts) ?_ status compress .stream) ?_
    · exact hdropped
    · exact hopen.responseBody
    · refine ⟨_, complete_eq rfl ?_ ?_, .streaming
        ⟨.inl rfl, rfl, fun _ => Option.some_ne_none _, ?_, ?_⟩ rfl ?_ nofun, hclean⟩
      · exact hopen.responseReady
      · exact hdropped
      · intro
        rw [hwaker, Bool.or_true]
      · exact hopen.finished
      · exact hopen.responseBodyFinished
  · refine .congr ((setResponse_dropped rfl ?_ status compress .stream).trans
      (complete_dropped rfl ?_ ?_)) ⟨_, finish_eq rfl rfl, .finishing rfl hopen.5 rfl nofun, hclean⟩
    · exact hdropped
    · exact hopen.responseReady
    · exact hdropped

lemma safe_pollPromise : Safe (act ⟨request, pool, inflight⟩ .pollPromise) := by
  have hlife := h
  cases h with
  | waiting hscript | cancelled hscript =>
    rcases hscript with rfl | rfl <;> exact ⟨_, rfl, hlife, hclean⟩
  | streaming hready hneeds hunfinished hwaker =>
    exact ⟨_, pollPromise_pending rfl hunfinished, .streaming
      { hready with } hneeds hunfinished (fun _ => rfl), hclean⟩
  | finishing hneeds hfinished hbody hwoken =>
    exact ⟨_, pollPromise_finished rfl hbody, .resolved hneeds hfinished, hclean⟩
  | _ => exact ⟨_, rfl, hlife, hclean⟩

lemma safe_closeAfterFinish : Safe (act ⟨request, pool, inflight⟩ .closeAfterFinish) := by
  refine safe_guarded h hclean fun hscript => ?_
  cases h with
  | waiting hqueued | cancelled hqueued => rcases hqueued with rfl | rfl <;> cases hscript
  | resolved hneeds hfinished =>
    exact .congr (closeAfterFinish_eq rfl hneeds hfinished) (.recycle rfl hclean rfl rfl rfl)
  | _ => cases hscript

/-- No step of a request panics. -/
lemma safe_act (action : RequestAction) : Safe (act ⟨request, pool, inflight⟩ action) := by
  cases action with
  | sent => exact safe_sent h hclean
  | pollReady => exact safe_pollReady h hclean
  | pollFrame result => exact safe_pollFrame h hclean result
  | dropConnection => exact safe_dropConnection h hclean
  | receive => exact safe_receive h hclean
  | readRequest => exact safe_readRequest h hclean
  | readRequestBody => exact safe_readRequestBody h hclean
  | setResponseHeaders headers => exact safe_setResponseHeaders h hclean headers
  | setResponseTrailers trailers => exact safe_setResponseTrailers h hclean trailers
  | setResponseBodyBytes isEmpty status compress =>
    refine safe_guarded h hclean fun hscript => ?_
    unfold setResponseBodyBytes
    split_ifs
    · exact safe_setPromiseComplete h hclean status hscript
    · exact safe_setResponse h hclean status compress hscript
  | setPromiseComplete status =>
    exact safe_guarded h hclean (safe_setPromiseComplete h hclean status)
  | setResponseBodyResource status compress =>
    exact safe_setResponseBodyResource h hclean status compress
  | pollPromise => exact safe_pollPromise h hclean
  | closeAfterFinish => exact safe_closeAfterFinish h hclean

omit hclean in
lemma recycles_le_one : request.recycles ≤ 1 := by
  cases h with
  | ended => exact Nat.le_refl 1
  | _ => exact Nat.zero_le 1

omit hclean in
/-- With the connection gone, the promise of the body is not left waiting. -/
lemma promise_resolves : request.PromiseResolves := by
  intro polled hscript hconn
  cases h with
  | waiting => cases hconn
  | cancelled hqueued => rcases hqueued with rfl | rfl <;> cases hscript
  | streaming hready => rcases hready.place with rfl | rfl <;> cases hconn
  | finishing _ _ hbody hwoken =>
    cases hscript
    exact ⟨hwoken, fun pool inflight => ⟨_, pollPromise_finished rfl hbody, rfl⟩⟩
  | _ => cases hscript

end Lifecycle

/-! ### The server -/

lemma HttpRecord.new_of_clean {pool : Pool} (hclean : pool.Clean) (requestHeaders : Headers) :
    (new pool requestHeaders).1 = ⟨1, some (.fresh requestHeaders [])⟩ ∧
      (new pool requestHeaders).2.Clean := by
  unfold new
  cases hlast : pool.getLast? with
  | none => exact ⟨rfl, hclean⟩
  | some entry =>
    have hentry := hclean entry (List.mem_of_getLast? hlast)
    subst hentry
    exact ⟨rfl, fun entry hmem => hclean entry (List.dropLast_subset _ hmem)⟩

namespace HttpServer

/-- Nothing has panicked, every request is in one of the phases, and the pool is clean. -/
structure Sound (s : HttpServer) : Prop where
  panicked : s.panicked = none
  requests : ∀ request ∈ s.requests, Lifecycle request
  pool : s.pool.Clean

lemma sound_empty : empty.Sound where
  panicked := rfl
  requests := fun _ hrequest => nomatch hrequest
  pool := fun _ hentry => nomatch hentry

lemma Sound.step {s : HttpServer} (hs : s.Sound) (action : HttpServerAction) :
    (s.step action).Sound := by
  cases action with
  | connect requestHeaders =>
    obtain ⟨hrecord, hclean⟩ := new_of_clean hs.pool requestHeaders
    have hlife : Lifecycle (accept (new s.pool requestHeaders).1) := by
      rw [hrecord]
      exact .sending ⟨rfl, rfl, rfl, Option.some_ne_none _, rfl, rfl⟩ rfl
    refine ⟨hs.panicked, ?_, hclean⟩
    exact List.forall_mem_append.mpr ⟨hs.requests, List.forall_mem_singleton.mpr hlife⟩
  | load inflight => exact ⟨hs.panicked, hs.requests, hs.pool⟩
  | request index action =>
    cases hrequest : s.requests[index]? with
    | none =>
      simp only [HttpServer.step, hrequest]
      exact hs
    | some request =>
      obtain ⟨c, hact, hlife, hclean⟩ : Safe (Scope.act ⟨request, s.pool, s.inflight⟩ action) :=
        (hs.requests request (List.mem_of_getElem? hrequest)).safe_act hs.pool action
      simp only [HttpServer.step, hrequest, hact]
      refine ⟨hs.panicked, ?_, hclean⟩
      intro other hother
      rcases List.mem_or_eq_of_mem_set hother with hother | rfl
      · exact hs.requests other hother
      · exact hlife

/-- Whatever the connections and JavaScript do, no assertion fails and no state is used after it
was taken, a record is recycled at most once, the promise of a body resolves when the connection is
gone, and the pool gives out records without a trace of an earlier request. -/
theorem run_lifecycle (actions : List HttpServerAction) :
    (machine.run empty actions).panicked = none ∧ (∀ request ∈ (machine.run empty actions).requests,
        request.recycles ≤ 1 ∧ request.PromiseResolves) ∧
      ∀ requestHeaders, (new (machine.run empty actions).pool requestHeaders).1 =
        ⟨1, some (.fresh requestHeaders [])⟩ := by
  have hsound : (machine.run empty actions).Sound :=
    Machine.run_invariant (fun s action hs => hs.step action) sound_empty actions
  refine ⟨hsound.panicked, ?_, ?_⟩
  · intro request hrequest
    have hlife := hsound.requests request hrequest
    exact ⟨hlife.recycles_le_one, hlife.promise_resolves⟩
  · intro requestHeaders
    exact (new_of_clean hsound.pool requestHeaders).1

end HttpServer

end Deno
