import Deno.Web.ByteStreamFill

/-!
# The invariant of a byte stream

The bytes that readers got, those on their way to a reader, those of the first descriptor and those
of the queue are the bytes that the source produced, in this order. The descriptors are those of
the requests, behind one of a reader that was released, and the queue is empty while one is
pending. Serving the descriptors from the queue keeps this up.
-/

namespace Deno

open Core List

def StreamReader.served : StreamReader → StreamReader
  | .default n => .default (n - 1)
  | .byob n => .byob (n - 1)

namespace ByteStream

/-! ### Where the bytes are -/

def headFilled : List PullIntoDescriptor → Bytes
  | [] => []
  | d :: _ => d.filled

/-- The bytes of an operation that waits for the pull algorithm. -/
def inFlight : Option PullFrame → Bytes
  | none => []
  | some (.read chunk) => chunk
  | some (.enqueue chunk view) | some (.released chunk view) => chunk ++ view.bytes

def readerType (s : ByteStream) : Option ReaderType :=
  match s.reader with
  | none => none
  | some (.default _) => some .default
  | some (.byob _) => some .byob

/-- The number of requests that have a descriptor. -/
def awaited (s : ByteStream) : ℕ :=
  match s.reader with
  | none => 0
  | some (.default n) => if s.autoAllocateChunkSize.isSome then n else 0
  | some (.byob n) => n

/-- The descriptors that are not of a released reader. -/
def live (pending : List PullIntoDescriptor) : List PullIntoDescriptor :=
  pending.filter fun d => d.readerType ≠ .none

/-- What holds of a stream also in the middle of an operation. -/
structure Consistent (s : ByteStream) : Prop where
  entries : ∀ entry ∈ s.queue, entry.Wf
  total : s.queueTotalSize = queueSize s.queue
  pending : ∀ d ∈ s.pendingPullIntos, d.Wf
  behind : ∀ d ∈ s.pendingPullIntos.tail, d.readerType ≠ .none ∧ d.bytesFilled = 0 ∧ d.detached = false
  types : ∀ d ∈ s.pendingPullIntos, d.readerType = .none ∨ s.readerType = some d.readerType
  requests : (live s.pendingPullIntos).length = s.awaited
  committed : ∀ d ∈ s.committed, d.Complete
  conserved : s.delivered ++ inFlight s.frame ++ headFilled s.pendingPullIntos ++ queueBytes s.queue =
    s.produced
  pullAgain : s.pullAgain = true → s.pulling = true
  pulling : s.pulling = true → s.started = true
  chunkSize : ∀ size, s.autoAllocateChunkSize = some size → 0 < size

/-- What is left to do of an operation can be done. -/
def FrameSound (s : ByteStream) : Prop :=
  match s.frame with
  | none => True
  | some (.read _) => s.pendingPullIntos = [] ∧ s.numRequests = 0
  | some (.enqueue _ view) => s.pendingPullIntos = [] ∧ s.queue = [] ∧ s.readerType = some .default ∧
      0 < view.byteLength
  | some (.released _ _) => False

/-- What holds between the operations. -/
structure Sound (s : ByteStream) : Prop extends s.Consistent where
  idle : s.pendingPullIntos ≠ [] → s.queue = []
  waiting : s.numRequests ≠ 0 → s.queue = []
  request : ∀ request, s.byobRequest = some request → ∃ d rest, s.pendingPullIntos = d :: rest ∧
    request = ⟨d.byteOffset + d.bytesFilled, d.byteLength - d.bytesFilled⟩
  attached : ∀ d ∈ s.pendingPullIntos, d.detached = true → s.byobRequest ≠ none
  frame : s.FrameSound

attribute [simp] headFilled inFlight

variable {s : ByteStream} {d : PullIntoDescriptor} {rest : List PullIntoDescriptor}

section

variable (hpending : s.pendingPullIntos = d :: rest)

include hpending

lemma mem_first : d ∈ s.pendingPullIntos := hpending ▸ mem_cons_self

lemma mem_rest {e : PullIntoDescriptor} (he : e ∈ rest) : e ∈ s.pendingPullIntos :=
  hpending ▸ mem_cons_of_mem d he

/-- Only the first descriptor can be that of a released reader. -/
lemma Consistent.behind_first (hs : s.Consistent) :
    ∀ e ∈ rest, e.readerType ≠ .none ∧ e.bytesFilled = 0 ∧ e.detached = false := by
  have hbehind := hs.behind
  rwa [hpending] at hbehind

lemma Sound.queue_of_pending (hs : s.Sound) : s.queue = [] :=
  hs.idle (hpending ▸ cons_ne_nil d rest)

/-- An operation waits for the source only when no descriptor is pending. -/
lemma Sound.noFrame_of_pending (hs : s.Sound) : s.frame = none := by
  have hframe := hs.frame
  unfold FrameSound at hframe
  cases hcase : s.frame with
  | none => rfl
  | some frame =>
    rw [hcase, hpending] at hframe
    cases frame with
    | read chunk | enqueue chunk view => cases hframe.1
    | released chunk view => exact hframe.elim

/-- With a descriptor pending, only the first one has bytes to be delivered. -/
lemma Sound.produced_of_pending (hs : s.Sound) : s.produced = s.delivered ++ d.filled := by
  have hconserved := hs.conserved
  rw [hs.noFrame_of_pending hpending, hpending, hs.queue_of_pending hpending] at hconserved
  simpa using hconserved.symm

end

/-! ### Pulling -/

/-- A call of the pull algorithm changes nothing else. -/
lemma callPullIfNeeded_eq (hagain : s.pullAgain = true → s.pulling = true)
    (hpulling : s.pulling = true → s.started = true) :
    ∃ pulling pullAgain called,
      s.callPullIfNeeded = .ok ({ s with pulling := pulling, pullAgain := pullAgain }, called) ∧
      (pullAgain = true → pulling = true) ∧ (pulling = true → s.started = true) := by
  unfold callPullIfNeeded
  by_cases hshould : s.shouldCallPull = true
  · have hstarted : s.started = true := (Bool.and_eq_true_iff.mp hshould).1
    rw [if_neg (by simp [hshould])]
    by_cases hpull : s.pulling = true
    · rw [if_pos hpull]
      exact ⟨s.pulling, true, false, rfl, fun _ => hpull, hpulling⟩
    · rw [if_neg hpull, if_neg fun h => hpull (hagain h)]
      exact ⟨true, s.pullAgain, true, rfl, fun _ => rfl, fun _ => hstarted⟩
  · rw [if_pos (by simp [hshould])]
    exact ⟨s.pulling, s.pullAgain, false, rfl, hagain, hpulling⟩

variable {pulling pullAgain : Bool}

lemma Consistent.setPulling (hs : s.Consistent)
    (hagain : pullAgain = true → pulling = true) (hpulling : pulling = true → s.started = true) :
    { s with pulling := pulling, pullAgain := pullAgain }.Consistent :=
  { hs with pullAgain := hagain, pulling := hpulling }

lemma Sound.setPulling (hs : s.Sound)
    (hagain : pullAgain = true → pulling = true) (hpulling : pulling = true → s.started = true) :
    { s with pulling := pulling, pullAgain := pullAgain }.Sound :=
  { hs.toConsistent.setPulling hagain hpulling with
    idle := hs.idle, waiting := hs.waiting, request := hs.request, attached := hs.attached
    frame := hs.frame }

lemma Sound.endWithPull (hs : s.Sound) : ∃ s', s.endWithPull = .ok s' ∧ s'.Sound := by
  obtain ⟨pulling, pullAgain, called, hcall, hagain, hpulling⟩ :=
    callPullIfNeeded_eq hs.pullAgain hs.pulling
  refine ⟨_, ?_, hs.setPulling hagain hpulling⟩
  simp only [ByteStream.endWithPull, hcall, bind, Except.bind]
  rfl

/-! ### Serving the descriptors -/

variable {pending : List PullIntoDescriptor}

lemma live_eq_self (h : ∀ d ∈ pending, d.readerType ≠ .none) : live pending = pending :=
  List.filter_eq_self.mpr fun d hd => decide_eq_true (h d hd)

/-- A stream with no descriptor of a released reader, and no request to the source. -/
structure Settled (s : ByteStream) : Prop extends s.Consistent where
  request : s.byobRequest = none
  noFrame : s.frame = none
  own : ∀ d ∈ s.pendingPullIntos, d.readerType ≠ .none ∧ d.detached = false

/-- Each request has its descriptor. -/
structure Processing (s : ByteStream) : Prop extends s.Settled where
  covered : s.numRequests = s.awaited

lemma Settled.sound (hs : s.Settled) (hidle : s.pendingPullIntos ≠ [] → s.queue = [])
    (hwaiting : s.numRequests ≠ 0 → s.queue = []) : s.Sound := by
  refine { hs.toConsistent with
    idle := hidle, waiting := hwaiting, request := ?_, attached := ?_, frame := ?_ }
  · intro request hrequest
    rw [hs.request] at hrequest
    cases hrequest
  · intro d hd hdetached
    rw [(hs.own d hd).2] at hdetached
    cases hdetached
  · rw [FrameSound, hs.noFrame]
    trivial

lemma Processing.sound (hs : s.Processing) (hidle : s.pendingPullIntos ≠ [] → s.queue = []) :
    s.Sound := by
  refine hs.toSettled.sound hidle fun hrequests => hidle fun hpending => hrequests ?_
  rw [hs.covered, ← hs.requests, hpending]
  rfl

lemma commitPullIntoDescriptor_eq (hcomplete : d.Complete)
    (htype : s.readerType = some d.readerType) (hpos : 0 < s.numRequests) :
    s.commitPullIntoDescriptor d = .ok ({ s with
      committed := s.committed ++ [d], reader := s.reader.map StreamReader.served }.deliver
        d.filled) := by
  have haligned : d.bytesFilled % d.elementSize = 0 := Nat.mod_eq_zero_of_dvd hcomplete.aligned
  unfold readerType at htype
  unfold numRequests at hpos
  cases hreader : s.reader with
  | none =>
    rw [hreader] at htype
    cases htype
  | some reader =>
    rw [hreader] at htype hpos
    cases reader with
    | default n | byob n =>
      have hd := (Option.some.inj htype).symm
      cases n with
      | zero => exact absurd hpos (Nat.lt_irrefl 0)
      | succ n =>
        simp only [commitPullIntoDescriptor, convertPullIntoDescriptor, assert, hd, haligned,
          if_pos hcomplete.fits, bind, Except.bind]
        simp only [fulfillReadRequest, fulfillReadIntoRequest, hreader]
        rfl

/-- A descriptor has been taken off the list, and is about to become a view. -/
structure Committing (s : ByteStream) (c : PullIntoDescriptor) : Prop where
  complete : c.Complete
  type : s.readerType = some c.readerType
  entries : ∀ entry ∈ s.queue, entry.Wf
  total : s.queueTotalSize = queueSize s.queue
  pending : ∀ d ∈ s.pendingPullIntos, d.Wf
  behind : ∀ d ∈ s.pendingPullIntos, d.readerType = c.readerType ∧ d.bytesFilled = 0 ∧
    d.detached = false
  requests : s.pendingPullIntos.length + 1 = s.awaited
  covered : s.numRequests = s.awaited
  committed : ∀ d ∈ s.committed, d.Complete
  conserved : s.delivered ++ c.filled ++ queueBytes s.queue = s.produced
  pullAgain : s.pullAgain = true → s.pulling = true
  pulling : s.pulling = true → s.started = true
  chunkSize : ∀ size, s.autoAllocateChunkSize = some size → 0 < size
  request : s.byobRequest = none
  noFrame : s.frame = none

lemma readerType_ne_none {type : ReaderType} (h : s.readerType = some type) : type ≠ .none := by
  unfold readerType at h
  split at h
  · cases h
  · cases h
    exact ReaderType.noConfusion
  · cases h
    exact ReaderType.noConfusion

lemma headFilled_eq_nil (h : ∀ d ∈ pending, d.bytesFilled = 0) : headFilled pending = [] := by
  cases pending with
  | nil => rfl
  | cons d rest =>
    rw [headFilled, PullIntoDescriptor.filled, h d mem_cons_self, slice_zero]

lemma served_eq (s s' : ByteStream) (hreader : s'.reader = s.reader.map .served)
    (hauto : s'.autoAllocateChunkSize = s.autoAllocateChunkSize) :
    s'.readerType = s.readerType ∧ s'.numRequests = s.numRequests - 1 ∧
      s'.awaited = s.awaited - 1 := by
  unfold readerType numRequests awaited
  rw [hreader, hauto]
  cases s.reader with
  | none => exact ⟨rfl, rfl, rfl⟩
  | some reader =>
    cases reader with
    | default n =>
      refine ⟨rfl, rfl, ?_⟩
      split_ifs <;> rfl
    | byob n => exact ⟨rfl, rfl, rfl⟩

variable {c : PullIntoDescriptor}

lemma Committing.processing (hs : s.Committing c) : Processing ({ s with
      committed := s.committed ++ [c], reader := s.reader.map StreamReader.served }.deliver
        c.filled) := by
  have hown : ∀ d ∈ s.pendingPullIntos, d.readerType ≠ .none := by
    intro d hd
    rw [(hs.behind d hd).1]
    exact readerType_ne_none hs.type
  generalize hs' : ({ s with
    committed := s.committed ++ [c]
    reader := s.reader.map StreamReader.served } : ByteStream).deliver c.filled = s'
  obtain ⟨htype, hnum, hawaited⟩ := served_eq s s' (by rw [← hs']; rfl) (by rw [← hs']; rfl)
  subst hs'
  exact {
    entries := hs.entries
    total := hs.total
    pending := hs.pending
    behind := fun d hd => by
      have hmem := mem_of_mem_tail hd
      exact ⟨hown d hmem, (hs.behind d hmem).2⟩
    types := fun d hd => .inr (by rw [htype, hs.type, (hs.behind d hd).1])
    requests := by
      rw [hawaited, ← hs.requests]
      exact congrArg List.length (live_eq_self hown)
    committed := forall_mem_append.mpr ⟨hs.committed, forall_mem_singleton.mpr hs.complete⟩
    conserved := by
      show s.delivered ++ c.filled ++ inFlight s.frame ++ headFilled s.pendingPullIntos ++
        queueBytes s.queue = s.produced
      rw [headFilled_eq_nil fun d hd => (hs.behind d hd).2.1, hs.noFrame, ← hs.conserved]
      simp
    pullAgain := hs.pullAgain
    pulling := hs.pulling
    chunkSize := hs.chunkSize
    request := hs.request
    noFrame := hs.noFrame
    own := fun d hd => ⟨hown d hd, (hs.behind d hd).2.2⟩
    covered := by rw [hnum, hawaited, hs.covered] }

lemma Committing.commit (hs : s.Committing c) :
    ∃ s', s.commitPullIntoDescriptor c = .ok s' ∧ s'.Processing ∧
      s'.pendingPullIntos = s.pendingPullIntos := by
  have hpos : 0 < s.numRequests := by
    rw [hs.covered, ← hs.requests]
    exact Nat.succ_pos _
  exact ⟨_, commitPullIntoDescriptor_eq hs.complete hs.type hpos, hs.processing, rfl⟩

/-- With all descriptors its own, a reader has as many requests. -/
lemma Settled.length_pending (hs : s.Settled) : s.pendingPullIntos.length = s.awaited := by
  rw [← hs.requests, live_eq_self fun d hd => (hs.own d hd).1]

section

variable {data : Bytes} {queue : List ReadableByteStreamQueueEntry}

/-- Bytes of the queue complete the first descriptor. -/
lemma Processing.committing (hs : s.Processing) (hpending : s.pendingPullIntos = d :: rest)
    (hwf : ∀ entry ∈ queue, entry.Wf) (hbytes : data ++ queueBytes queue = queueBytes s.queue)
    (hcomplete : (d.write data).Complete) :
    Committing { s with
      pendingPullIntos := rest, queue := queue, queueTotalSize := queueSize queue } (d.write data) := by
  have hmem := mem_first hpending
  have htype : s.readerType = some d.readerType := (hs.types d hmem).resolve_left (hs.own d hmem).1
  exact {
    complete := hcomplete
    type := htype
    entries := hwf
    total := rfl
    pending := fun e he => hs.pending e (mem_rest hpending he)
    behind := by
      intro e he
      have hbehind := hs.behind_first hpending e he
      have hsame := (hs.types e (mem_rest hpending he)).resolve_left hbehind.1
      rw [htype] at hsame
      exact ⟨(Option.some.inj hsame).symm, hbehind.2⟩
    requests := by
      show rest.length + 1 = s.awaited
      rw [← hs.length_pending, hpending, length_cons]
    covered := hs.covered
    committed := hs.committed
    conserved := by
      have hconserved := hs.conserved
      rw [hs.noFrame, hpending, ← hbytes] at hconserved
      rw [PullIntoDescriptor.filled_write (hs.pending d hmem).filled_inBounds, ← hconserved]
      simp
    pullAgain := hs.pullAgain
    pulling := hs.pulling
    chunkSize := hs.chunkSize
    request := hs.request
    noFrame := hs.noFrame }

lemma Consistent.replaceFirst (hs : s.Consistent) (hpending : s.pendingPullIntos = d :: rest)
    (first : PullIntoDescriptor) (request : Option ReadableStreamBYOBRequest) {produced : Bytes}
    (hfirst : first.Wf) (htype : first.readerType = d.readerType) (hwf : ∀ entry ∈ queue, entry.Wf)
    (hconserved : s.delivered ++ inFlight s.frame ++ first.filled ++ queueBytes queue = produced) :
    Consistent { s with
      pendingPullIntos := first :: rest, byobRequest := request, queue := queue
      queueTotalSize := queueSize queue, produced := produced } := by
  refine { hs with
    entries := hwf, total := rfl, pending := ?_, behind := hs.behind_first hpending, types := ?_
    requests := ?_, conserved := hconserved }
  · exact forall_mem_cons.mpr ⟨hfirst, fun e he => hs.pending e (mem_rest hpending he)⟩
  · refine forall_mem_cons.mpr ⟨?_, fun e he => hs.types e (mem_rest hpending he)⟩
    rw [htype]
    exact hs.types d (mem_first hpending)
  · have hlive : (live (first :: rest)).length = (live (d :: rest)).length := by
      simp only [live, filter_cons, htype]
      split_ifs <;> rfl
    rw [← hpending] at hlive
    exact hlive.trans hs.requests

/-- All bytes of the queue go to the first descriptor, which waits for more. -/
lemma Processing.drained (hs : s.Processing) (hpending : s.pendingPullIntos = d :: rest)
    (hbytes : data ++ queueBytes [] = queueBytes s.queue) (hwf : (d.write data).Wf) :
    Processing { s with
      pendingPullIntos := d.write data :: rest, queue := [], queueTotalSize := 0 } := by
  have hd := hs.pending d (mem_first hpending)
  have hconserved : s.delivered ++ inFlight s.frame ++ (d.write data).filled ++ queueBytes [] =
      s.produced := by
    have hconserved := hs.conserved
    rw [hpending, ← hbytes] at hconserved
    rw [PullIntoDescriptor.filled_write hd.filled_inBounds, ← hconserved]
    simp
  have hempty : ∀ entry ∈ [], ReadableByteStreamQueueEntry.Wf entry := forall_mem_nil _
  refine { hs.toConsistent.replaceFirst hpending (d.write data) s.byobRequest hwf rfl hempty
      hconserved with
    request := hs.request, noFrame := hs.noFrame, own := ?_, covered := hs.covered }
  exact forall_mem_cons.mpr
    ⟨hs.own d (mem_first hpending), fun e he => hs.own e (mem_rest hpending he)⟩

end

/-- The descriptors are served in their order as long as there are bytes. -/
lemma Processing.processPullIntos (hs : s.Processing) (hpending : s.pendingPullIntos = pending) :
    ∃ s', processPullIntos pending s = .ok s' ∧ s'.Processing ∧
      (s'.pendingPullIntos ≠ [] → s'.queue = []) := by
  induction pending generalizing s with
  | nil => exact ⟨s, rfl, hs, fun h => absurd hpending h⟩
  | cons d rest ih =>
    by_cases htotal : s.queueTotalSize = 0
    · refine ⟨s, ?_, hs, fun _ => eq_nil_of_queueSize_eq_zero hs.entries (hs.total ▸ htotal)⟩
      rw [ByteStream.processPullIntos, if_pos htotal]
    · have hd := hs.pending d (mem_first hpending)
      obtain ⟨ready, data, queue, hfill, hwf, hbytes, hcomplete, hshort⟩ :=
        fillPullIntoDescriptorFromQueue_eq (.inr ⟨rest, rfl⟩) hs.entries hs.total
          (Nat.pos_of_ne_zero htotal) hpending hs.request hd
      rw [ByteStream.processPullIntos, if_neg htotal, hfill]
      cases ready with
      | true =>
        obtain ⟨s', hcommit, hproc, hrest⟩ :=
          (hs.committing hpending hwf hbytes (hcomplete rfl)).commit
        obtain ⟨s'', hprocess, hproc', hidle⟩ := ih hproc hrest
        refine ⟨s'', ?_, hproc', hidle⟩
        simp only [bind, Except.bind, shiftPendingPullInto, assert, if_pos hs.request, if_true,
          tail_cons, pure, Except.pure]
        rw [hcommit]
        exact hprocess
      | false =>
        obtain ⟨rfl, hwf'⟩ := hshort rfl
        exact ⟨_, rfl, hs.drained hpending hbytes hwf', fun _ => rfl⟩

/-- The queue is used up for the pending descriptors. -/
lemma Processing.process (hs : s.Processing) :
    ∃ s', s.processPullIntoDescriptorsUsingQueue = .ok s' ∧ s'.Sound := by
  obtain ⟨s', hprocess, hproc, hidle⟩ := hs.processPullIntos rfl
  exact ⟨s', hprocess, hproc.sound hidle⟩

end ByteStream

end Deno
