import Deno.Web.BufferChannel

/-!
# Waiting for a channel

A reader or writer that finds the channel not ready leaves a waker. Whatever makes the channel
ready has to wake it: no waker may stay in a channel that is ready for it.
-/

namespace Deno

open Core

/-- An operation on a channel, with any buffer and any limit. -/
inductive WakerOp (ω : Type) where
  | write (buffer : Bytes)
  | read (limit : ℕ)
  | writeError (error : AnyError)
  | close
  | pollReadReady (waker : ω)
  | pollWriteReady (waker : ω)

namespace BoundedBufferChannelInner

variable {ω : Type}

section

variable (c : BoundedBufferChannelInner ω)

/-- The channel behind an operation; a panic leaves it as it was. -/
def after : WakerOp ω → BoundedBufferChannelInner ω
  | .write buffer =>
    match c.write buffer with
    | .ok (_, c', _) => c'
    | .error _ => c
  | .read limit =>
    match c.read limit with
    | .ok out => out.channel
    | .error _ => c
  | .writeError error => (c.writeError error).1
  | .close => c.close.1
  | .pollReadReady waker => (c.pollReadReady waker).2
  | .pollWriteReady waker => (c.pollWriteReady waker).2

def wakerMachine (ω : Type) : Machine (BoundedBufferChannelInner ω) (WakerOp ω) := ⟨after⟩

/-- A waiting reader waits for something. -/
def ReaderWaits : Prop :=
  c.readWaker.isSome → c.canRead = false

def WriterWaits : Prop :=
  c.writeWaker.isSome → c.canWrite = false

end

/-- The number of buffers is the distance between the indices, so that a reader waits only if
there are none. -/
structure Indexed (c : BoundedBufferChannelInner ω) : Prop where
  consumer_lt : c.ringConsumer < bufferChannelSize
  room : c.len < bufferChannelSize
  producer : c.ringProducer = (c.ringConsumer + c.len) % bufferChannelSize
  reader : c.ReaderWaits

variable {c c' : BoundedBufferChannelInner ω} {buffer buf : Bytes} {limit : ℕ}

lemma canRead_eq_false : c.canRead = false ↔
    c.closed = false ∧ c.error = none ∧ c.ringConsumer = c.ringProducer := by
  simp [canRead, and_assoc]

lemma canWrite_eq_false : c.canWrite = false ↔ c.closed = false ∧ c.error = none ∧
    (c.nextProducerIndex = c.ringConsumer ∨ bufferBackpressureLimit ≤ c.currentSize) := by
  simp only [canWrite, Bool.or_eq_false_iff, Bool.and_eq_false_iff, Option.isSome_eq_false_iff,
    Option.isNone_iff_eq_none, bne_eq_false_iff_eq, decide_eq_false_iff_not, not_lt, and_assoc]

/-! ### What a call comes to -/

/-- A write changes nothing, or puts the buffer into a free slot and wakes the reader. -/
lemma after_write (c : BoundedBufferChannelInner ω) (buffer : Bytes) :
    c.after (.write buffer) = c ∨ c.nextProducerIndex ≠ c.ringConsumer ∧
      c.after (.write buffer) = { c with
        currentSize := c.currentSize + buffer.length
        buffers := Function.update c.buffers c.ringProducer (some buffer)
        ringProducer := c.nextProducerIndex
        len := c.len + 1
        readWaker := none } := by
  rw [after]
  cases hfull : c.isFull with
  | true =>
    rw [write_full hfull]
    exact Or.inl rfl
  | false =>
    have hne : c.nextProducerIndex ≠ c.ringConsumer := beq_eq_false_iff_ne.mp hfull
    rw [write, if_neg (by simp [hfull]), if_neg hne]
    exact Or.inr ⟨hne, rfl⟩

lemma eq_of_takeNextUnsafe (h : c.takeNextUnsafe = .ok (buf, c')) :
    c' = { c with ringConsumer := (c.ringConsumer + 1) % bufferChannelSize } := by
  obtain ⟨_, _, h⟩ := bind_eq_ok.mp h
  cases h
  rfl

lemma eq_of_drainLoop {fuel : ℕ} {slices : List Bytes}
    (h : drainLoop fuel c = .ok (slices, c')) : ∃ i, c' = { c with ringConsumer := i } := by
  induction fuel generalizing c slices with
  | zero => cases h
  | succ fuel ih =>
    rw [drainLoop] at h
    split_ifs at h
    · obtain ⟨⟨_, c₁⟩, htake, h⟩ := bind_eq_ok.mp h
      obtain ⟨⟨_, c₂⟩, hrest, h⟩ := bind_eq_ok.mp h
      cases h
      obtain ⟨i, rfl⟩ := ih hrest
      exact ⟨i, by rw [eq_of_takeNextUnsafe htake]⟩
    · cases h
      exact ⟨_, rfl⟩

lemma eq_of_takeUpTo (h : c.takeUpTo limit = .ok (buf, c')) :
    c'.readWaker = c.readWaker ∧ c'.ringProducer = c.ringProducer ∧
      (c'.ringConsumer = c.ringConsumer ∧ c'.len = c.len ∨
        c'.ringConsumer = (c.ringConsumer + 1) % bufferChannelSize ∧ c'.len + 1 = c.len) := by
  obtain ⟨_, _, h⟩ := bind_eq_ok.mp h
  split_ifs at h
  · obtain ⟨_, _, h⟩ := bind_eq_ok.mp h
    obtain ⟨len, hlen, h⟩ := bind_eq_ok.mp h
    rw [checkedSub] at hlen
    split_ifs at hlen with hle
    cases hlen
    rw [eq_of_takeNextUnsafe h]
    exact ⟨rfl, rfl, Or.inr ⟨rfl, Nat.sub_add_cancel hle⟩⟩
  · obtain ⟨_, _, h⟩ := bind_eq_ok.mp h
    cases h
    exact ⟨rfl, rfl, Or.inl ⟨rfl, rfl⟩⟩

/-- What a read comes to: it takes the error of an empty channel, drains the channel, or takes
from it. -/
inductive ReadRule (c : BoundedBufferChannelInner ω) : BoundedBufferChannelInner ω → Prop where
  | stay : ReadRule c c
  | failed (hlen : c.len = 0) (error : AnyError) (herror : c.error = some error) :
      ReadRule c { c with error := none }
  | drained (hlen : c.len ≠ 0) : ReadRule c { c with
      currentSize := 0, ringProducer := 0, ringConsumer := 0, len := 0, writeWaker := none }
  | taken (hlen : c.len ≠ 0) {limit : ℕ} {buf : Bytes} {c' : BoundedBufferChannelInner ω}
      (htake : c.takeUpTo limit = .ok (buf, c')) : ReadRule c c'.wakeWriter.1

lemma after_read (c : BoundedBufferChannelInner ω) (limit : ℕ) :
    c.ReadRule (c.after (.read limit)) := by
  rw [after]
  cases hread : c.read limit with
  | error fault => exact .stay
  | ok out =>
    rw [read] at hread
    split_ifs at hread with hlen
    · split at hread
      · next error herror =>
        cases hread
        exact .failed hlen error herror
      · cases hread
        exact .stay
    · obtain ⟨⟨slices, c₁⟩, hdrain, hread⟩ := bind_eq_ok.mp hread
      obtain ⟨⟨_, c₂⟩, hloop, hdrain⟩ := bind_eq_ok.mp hdrain
      obtain ⟨i, rfl⟩ := eq_of_drainLoop hloop
      cases hdrain
      cases hread
      exact .drained hlen
    · obtain ⟨⟨buf, c₁⟩, htake, hread⟩ := bind_eq_ok.mp hread
      dsimp only at hread
      split_ifs at hread
      cases hread
      exact .taken hlen htake

/-! ### Readers -/

lemma wakeWriter_eq (c : BoundedBufferChannelInner ω) :
    c.wakeWriter.1 = { c with writeWaker := c.wakeWriter.1.writeWaker } := by
  unfold wakeWriter
  split_ifs <;> rfl

lemma Indexed.len_eq_zero (h : c.Indexed) (hwaits : c.readWaker.isSome) : c.len = 0 := by
  obtain ⟨hlt, hroom, hproducer, hreader⟩ := h
  have heq := (canRead_eq_false.mp (hreader hwaits)).2.2
  unfold bufferChannelSize at hlt hroom hproducer
  omega

/-- Every operation that makes the channel readable wakes the reader. -/
lemma Indexed.after (h : c.Indexed) (op : WakerOp ω) : (c.after op).Indexed := by
  have hempty := h.len_eq_zero
  have ⟨hlt, hroom, hproducer, hreader⟩ := h
  cases op with
  | write buffer =>
    obtain heq | ⟨hne, heq⟩ := c.after_write buffer <;> rw [heq]
    · exact h
    · unfold nextProducerIndex bufferChannelSize at *
      refine ⟨hlt, ?_, ?_, nofun⟩ <;> simp only [bufferChannelSize] <;> omega
  | read limit =>
    generalize c.after (.read limit) = c', c.after_read limit = hread
    cases hread with
    | stay => exact h
    | failed _ error herror =>
      refine ⟨hlt, hroom, hproducer, fun hwaits => ?_⟩
      rw [(canRead_eq_false.mp (hreader hwaits)).2.1] at herror
      cases herror
    | drained hlen =>
      exact ⟨Nat.succ_pos 1023, Nat.succ_pos 1023, rfl, fun hwaits => absurd (hempty hwaits) hlen⟩
    | taken hlen htake =>
      obtain ⟨hwaker, hp, hmoved⟩ := eq_of_takeUpTo htake
      rw [wakeWriter_eq]
      unfold bufferChannelSize at *
      refine ⟨?_, ?_, ?_, fun hwaits => absurd (hempty (hwaker ▸ hwaits)) hlen⟩ <;>
        simp only [bufferChannelSize] <;> omega
  | writeError | close => exact ⟨hlt, hroom, hproducer, nofun⟩
  | pollReadReady waker =>
    simp only [BoundedBufferChannelInner.after, pollReadReady]
    split_ifs with hcan
    · exact ⟨hlt, hroom, hproducer, fun _ => (Bool.not_eq_true' _).mp hcan⟩
    · exact ⟨hlt, hroom, hproducer, nofun⟩
  | pollWriteReady waker =>
    simp only [BoundedBufferChannelInner.after, pollWriteReady]
    split_ifs <;> exact ⟨hlt, hroom, hproducer, hreader⟩

/-! ### Writers -/

lemma writerWaits_of_none (hnone : c.writeWaker = none) : c.WriterWaits := by
  simp [WriterWaits, hnone]

lemma writerWaits_wakeWriter (c : BoundedBufferChannelInner ω) : c.wakeWriter.1.WriterWaits := by
  unfold wakeWriter
  split_ifs with hcan
  · exact writerWaits_of_none rfl
  · intro hwaits
    simpa [hwaits] using hcan

def NoneWaitsAtError (c : BoundedBufferChannelInner ω) : WakerOp ω → Prop
  | .writeError _ => c.writeWaker = none
  | _ => True

/-- Every operation that makes the channel writable wakes the writer, except that an error does
not. -/
lemma WriterWaits.after_iff (hwriter : c.WriterWaits) (op : WakerOp ω) :
    (c.after op).WriterWaits ↔ c.NoneWaitsAtError op := by
  cases op with
  | writeError error =>
    rw [NoneWaitsAtError, WriterWaits]
    simp [BoundedBufferChannelInner.after, BoundedBufferChannelInner.writeError, canWrite]
  | write buffer =>
    refine iff_of_true ?_ trivial
    obtain heq | ⟨hne, heq⟩ := c.after_write buffer <;> rw [heq]
    · exact hwriter
    · -- there is room, so the writer waits for bytes to be read
      intro hwaits
      obtain ⟨hclosed, herror, hfull⟩ := canWrite_eq_false.mp (hwriter hwaits)
      exact canWrite_eq_false.mpr ⟨hclosed, herror,
        Or.inr ((hfull.resolve_left hne).trans (Nat.le_add_right _ _))⟩
  | read limit =>
    refine iff_of_true ?_ trivial
    generalize c.after (.read limit) = c', c.after_read limit = hread
    cases hread with
    | stay => exact hwriter
    | failed _ error herror =>
      intro hwaits
      rw [(canWrite_eq_false.mp (hwriter hwaits)).2.1] at herror
      cases herror
    | drained => exact writerWaits_of_none rfl
    | taken => exact writerWaits_wakeWriter _
  | close => exact iff_of_true (writerWaits_of_none rfl) trivial
  | pollReadReady waker =>
    refine iff_of_true ?_ trivial
    simp only [BoundedBufferChannelInner.after, pollReadReady]
    split_ifs <;> exact hwriter
  | pollWriteReady waker =>
    refine iff_of_true ?_ trivial
    simp only [BoundedBufferChannelInner.after, pollWriteReady]
    split_ifs with hcan
    · exact fun _ => (Bool.not_eq_true' _).mp hcan
    · exact writerWaits_of_none rfl

/-! ### Runs -/

/-- No reader is ever left waiting in a channel that is readable. No writer is left waiting in one
that is writable up to the first error that is written while a writer waits; there one is. -/
theorem wakers_wait (ops : List (WakerOp ω)) : ((wakerMachine ω).run new ops).ReaderWaits ∧
      ((wakerMachine ω).Along NoneWaitsAtError new ops →
        ((wakerMachine ω).run new ops).WriterWaits ∧
          ∀ op, (((wakerMachine ω).run new ops).after op).WriterWaits ↔
            ((wakerMachine ω).run new ops).NoneWaitsAtError op) := by
  constructor
  · have hrun : ((wakerMachine ω).run new ops).Indexed := Machine.run_invariant
      (fun c op h => h.after op) ⟨Nat.succ_pos 1023, Nat.succ_pos 1023, rfl, nofun⟩ ops
    exact hrun.reader
  · intro halong
    have hwriter := Machine.run_invariant_of_along (P := WriterWaits)
      (fun c op hop h => (h.after_iff op).mpr hop) (s := new) nofun ops halong
    exact ⟨hwriter, hwriter.after_iff⟩

/-- An error that finds no writer waiting. -/
theorem wakers_wait_after_error :
    (wakerMachine ℕ).Along NoneWaitsAtError new [.writeError (.msg "aborted"), .read 1] ∧
      ((wakerMachine ℕ).run new [.writeError (.msg "aborted"), .read 1]).WriterWaits := by
  have halong : (wakerMachine ℕ).Along NoneWaitsAtError new
    [.writeError (.msg "aborted"), .read 1] := ⟨rfl, trivial, trivial⟩
  exact ⟨halong, ((wakers_wait _).2 halong).1⟩

/-- A writer that waits for a full channel is not woken by an error. -/
lemma not_writerWaits_of_full {buffer : Bytes} (hfull : bufferBackpressureLimit ≤ buffer.length)
    (waker : ω) (error : AnyError) : ¬ ((wakerMachine ω).run new
      [.write buffer, .pollWriteReady waker, .writeError error]).WriterWaits := by
  have hcan : ((new : BoundedBufferChannelInner ω).after (.write buffer)).canWrite = false :=
    canWrite_eq_false.mpr ⟨rfl, rfl, Or.inr (hfull.trans (Nat.zero_add _).ge)⟩
  have hpoll : ((new.after (.write buffer)).pollWriteReady waker).2.writeWaker = some waker := by
    rw [pollWriteReady, hcan]
    rfl
  intro hwaits
  exact absurd (canWrite_eq_false.mp (hwaits (congrArg Option.isSome hpoll))).2.1 nofun

theorem writer_missed_by_error : ¬ ((wakerMachine ℕ).run new
    [.write (List.replicate bufferBackpressureLimit 0), .pollWriteReady 1,
      .writeError (.msg "aborted")]).WriterWaits :=
  not_writerWaits_of_full List.length_replicate.ge 1 _

end BoundedBufferChannelInner

end Deno
