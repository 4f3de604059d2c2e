import Deno.Web.StreamResource

/-!
# The channel is a queue of bytes

What the channel holds is a list of buffers, and the three counters and two indices of the ring
are functions of that list. Each operation is specified by what it does to the list.
-/

namespace Deno

open Core List

namespace BoundedBufferChannelInner

variable {ω : Type}

/-- The channel holds the buffers of the list, none of them empty. -/
structure Holds (c : BoundedBufferChannelInner ω) (l : List Bytes) : Prop where
  consumer_lt : c.ringConsumer < bufferChannelSize
  producer : c.ringProducer = (c.ringConsumer + l.length) % bufferChannelSize
  room : l.length < bufferChannelSize
  occupies : Occupies c.buffers bufferChannelSize c.ringConsumer l
  len : c.len = l.length
  size : c.currentSize = l.flatten.length
  nonempty : ∀ b ∈ l, b ≠ []

lemma holds_new : (new : BoundedBufferChannelInner ω).Holds [] where
  consumer_lt := Nat.succ_pos 1023
  producer := rfl
  room := Nat.succ_pos 1023
  occupies := trivial
  len := rfl
  size := rfl
  nonempty := by simp

namespace Holds

variable {c : BoundedBufferChannelInner ω} {b : Bytes} {l : List Bytes}

lemma stored_eq (h : c.Holds l) : c.stored = l := by
  rw [stored, h.len]
  exact h.occupies.ringElems_eq

lemma next_eq (h : c.Holds (b :: l)) : c.buffers c.ringConsumer = some b := h.occupies.1

lemma producer_ne (h : c.Holds (b :: l)) : c.ringProducer ≠ c.ringConsumer := by
  have hne := ring_index_ne (i := c.ringConsumer) (Nat.succ_pos l.length) h.room
  rw [Nat.add_zero, Nat.mod_eq_of_lt h.consumer_lt] at hne
  rw [h.producer]
  exact hne.symm

lemma producer_eq (h : c.Holds []) : c.ringProducer = c.ringConsumer := by
  rw [h.producer, length_nil, Nat.add_zero, Nat.mod_eq_of_lt h.consumer_lt]

lemma size_eq_zero_iff (h : c.Holds l) : c.currentSize = 0 ↔ c.len = 0 := by
  rw [h.size, h.len]
  cases l with
  | nil => simp
  | cons b l =>
    have hb : b.length ≠ 0 := by
      rw [Ne, length_eq_zero_iff]
      exact h.nonempty b mem_cons_self
    simp [hb]

lemma nextProducerIndex_eq (h : c.Holds l) :
    c.nextProducerIndex = (c.ringConsumer + (l.length + 1)) % bufferChannelSize := by
  rw [nextProducerIndex, h.producer, Nat.mod_add_mod, Nat.add_assoc]

/-- One slot of the ring is never used. -/
lemma isFull_iff (h : c.Holds l) : c.isFull = true ↔ l.length + 1 = bufferChannelSize := by
  rw [isFull, beq_iff_eq, h.nextProducerIndex_eq]
  have hroom := h.room
  have hlt := h.consumer_lt
  constructor
  · intro heq
    by_contra hne
    have hnext := ring_index_ne (i := c.ringConsumer) (Nat.succ_pos l.length)
      (show l.length + 1 < bufferChannelSize by omega)
    rw [Nat.add_zero, Nat.mod_eq_of_lt hlt] at hnext
    exact hnext heq.symm
  · intro heq
    rw [heq, Nat.add_mod_right, Nat.mod_eq_of_lt hlt]

/-- The channel behind its first buffer, the counters set to fit. -/
lemma tail (h : c.Holds (b :: l)) : Holds { c with
    currentSize := l.flatten.length
    len := l.length
    ringConsumer := (c.ringConsumer + 1) % bufferChannelSize } l where
  consumer_lt := Nat.mod_lt _ (by decide)
  producer := by
    rw [h.producer, Nat.mod_add_mod, length_cons, Nat.add_assoc, Nat.add_comm 1]
  room := Nat.lt_of_succ_lt h.room
  occupies := h.occupies.2
  len := rfl
  size := rfl
  nonempty := fun b' hb' => h.nonempty b' (mem_cons_of_mem b hb')

/-- The channel with another first buffer: the buffers behind it are in other slots. -/
lemma setHead (h : c.Holds (b :: l)) {b' : Bytes} (hb' : b' ≠ []) : Holds { c with
    buffers := Function.update c.buffers c.ringConsumer (some b')
    currentSize := (b' :: l).flatten.length } (b' :: l) where
  consumer_lt := h.consumer_lt
  producer := h.producer
  room := h.room
  occupies := by
    refine ⟨Function.update_self _ _ _, ?_⟩
    refine h.occupies.2.update (fun k hk => ?_) (Nat.mod_lt _ (by decide)) _
    have hlt : k + 1 < bufferChannelSize := lt_of_le_of_lt (Nat.succ_le_succ hk.le) h.room
    have hne := ring_index_ne (i := c.ringConsumer) (Nat.succ_pos k) hlt
    rw [Nat.add_zero, Nat.mod_eq_of_lt h.consumer_lt] at hne
    rw [Nat.mod_add_mod, Nat.add_assoc, Nat.add_comm 1]
    exact hne.symm
  len := h.len
  size := rfl
  nonempty := List.forall_mem_cons.mpr ⟨hb', (List.forall_mem_cons.mp h.nonempty).2⟩

/-- The channel with one more buffer, written to a free slot. -/
lemma push (h : c.Holds l) (hfull : c.isFull = false) (hb : b ≠ []) : Holds { c with
    currentSize := c.currentSize + b.length
    buffers := Function.update c.buffers c.ringProducer (some b)
    ringProducer := c.nextProducerIndex
    len := c.len + 1 } (l ++ [b]) where
  consumer_lt := h.consumer_lt
  producer := by
    rw [h.nextProducerIndex_eq, length_append, length_singleton]
  room := by
    have hroom := h.room
    have hne : ¬ l.length + 1 = bufferChannelSize := by
      rw [← h.isFull_iff, hfull]
      exact Bool.false_ne_true
    rw [length_append, length_singleton]
    omega
  occupies := by
    have hold : Occupies (Function.update c.buffers c.ringProducer (some b)) bufferChannelSize
        c.ringConsumer l := by
      refine h.occupies.update (fun k hk => ?_) h.consumer_lt _
      rw [h.producer]
      exact ring_index_ne hk h.room
    refine hold.append h.consumer_lt ?_
    rw [← h.producer]
    exact Function.update_self _ _ _
  len := by
    rw [h.len, length_append, length_singleton]
  size := by
    rw [h.size, flatten_append, length_append, flatten_singleton]
  nonempty := by
    intro x hx
    rcases List.mem_append.mp hx with hx | hx
    · exact h.nonempty x hx
    · rw [mem_singleton] at hx
      exact hx ▸ hb

/-- Wakers, the error and the closing of the channel are no part of what it holds. -/
lemma congr {c' : BoundedBufferChannelInner ω} (h : c.Holds l) (hb : c'.buffers = c.buffers)
    (hp : c'.ringProducer = c.ringProducer) (hc : c'.ringConsumer = c.ringConsumer)
    (hs : c'.currentSize = c.currentSize) (hl : c'.len = c.len) : c'.Holds l where
  consumer_lt := hc ▸ h.consumer_lt
  producer := by rw [hp, hc, h.producer]
  room := h.room
  occupies := by
    rw [hb, hc]
    exact h.occupies
  len := by rw [hl, h.len]
  size := by rw [hs, h.size]
  nonempty := h.nonempty

end Holds

variable {c : BoundedBufferChannelInner ω} {b : Bytes} {l : List Bytes}

lemma takeNextUnsafe_eq (h : c.buffers c.ringConsumer = some b) : c.takeNextUnsafe =
    .ok (b, { c with ringConsumer := (c.ringConsumer + 1) % bufferChannelSize }) := by
  rw [takeNextUnsafe, nextUnsafe, h]
  rfl

/-! ### Reading -/

lemma drainLoop_eq (h : c.Holds l) {fuel : ℕ} (hfuel : l.length < fuel) (size len : ℕ) :
    drainLoop fuel { c with currentSize := size, len := len } =
      .ok (l, { c with currentSize := size, len := len, ringConsumer := c.ringProducer }) := by
  induction l generalizing c fuel with
  | nil =>
    obtain ⟨fuel, rfl⟩ := Nat.exists_eq_succ_of_ne_zero (Nat.ne_of_gt hfuel)
    rw [drainLoop, if_neg (not_not_intro h.producer_eq), h.producer_eq]
    rfl
  | cons b l ih =>
    obtain ⟨fuel, rfl⟩ := Nat.exists_eq_succ_of_ne_zero (Nat.ne_of_gt (Nat.zero_lt_of_lt hfuel))
    have hnext := takeNextUnsafe_eq (c := { c with currentSize := size, len := len }) h.next_eq
    have hrest := ih h.tail (Nat.lt_of_succ_lt_succ hfuel)
    rw [drainLoop, if_pos h.producer_ne, hnext]
    simp only [Except.bind, bind, pure, Except.pure] at hrest ⊢
    rw [hrest]

lemma drain_eq (h : c.Holds l) : c.drain = .ok (l, { c with
    currentSize := 0, ringProducer := 0, ringConsumer := 0, len := 0 }) := by
  rw [drain, drainLoop_eq h h.room]
  rfl

variable {limit : ℕ}

/-- A read of part of the channel takes bytes off its front, at least one. -/
lemma takeUpTo_spec (h : c.Holds (b :: l)) (hlimit : 1 ≤ limit) :
    ∃ buf c' l', c.takeUpTo limit = .ok (buf, c') ∧ c'.Holds l' ∧ buf ≠ [] ∧
      buf.length ≤ limit ∧ buf ++ l'.flatten = (b :: l).flatten := by
  have hb := h.nonempty b mem_cons_self
  have hnext : c.nextUnsafe = .ok b := by rw [nextUnsafe, h.next_eq]
  have hsize : c.currentSize = b.length + l.flatten.length := by
    rw [h.size, flatten_cons, length_append]
  by_cases hle : b.length ≤ limit
  · refine ⟨b, _, l, ?_, h.tail, hb, hle, rfl⟩
    have hsub : checkedSub c.currentSize b.length = .ok l.flatten.length := by
      rw [checkedSub, if_pos (by omega), hsize, Nat.add_sub_cancel_left]
    have hlen : checkedSub c.len 1 = .ok l.length := by
      rw [h.len, length_cons, checkedSub, if_pos (Nat.le_add_left 1 _), Nat.add_sub_cancel]
    rw [takeUpTo, hnext]
    simp only [Except.bind, bind, hle, if_true, hsub, hlen]
    exact takeNextUnsafe_eq h.next_eq
  · have hrest : b.drop limit ≠ [] := by
      rw [Ne, drop_eq_nil_iff]
      exact hle
    have hbuf : b.take limit ≠ [] := by
      rw [Ne, take_eq_nil_iff]
      rintro (h0 | h0)
      · omega
      · exact hb h0
    have hsub : checkedSub c.currentSize limit = .ok ((b.drop limit :: l).flatten.length) := by
      rw [checkedSub, if_pos (by omega), flatten_cons, length_append, length_drop]
      congr 1
      omega
    refine ⟨b.take limit, _, b.drop limit :: l, ?_, h.setHead hrest, hbuf, length_take_le _ _, ?_⟩
    · rw [takeUpTo, hnext]
      simp only [Except.bind, bind, hle, if_false, hsub]
      rfl
    · rw [flatten_cons, flatten_cons, ← append_assoc, take_append_drop]

def returned : Except AnyError (Option Bytes) → Bytes
  | .ok (some buf) => buf
  | _ => []

structure ReadSpec (c : BoundedBufferChannelInner ω) (l : List Bytes) (limit : ℕ)
    (out : ReadOutcome ω) (l' : List Bytes) : Prop where
  holds : out.channel.Holds l'
  bytes : returned out.result ++ l'.flatten = l.flatten
  some_of_stored : l ≠ [] → ∃ buf, out.result = .ok (some buf) ∧ 1 ≤ buf.length ∧ buf.length ≤ limit
  none_of_empty : l = [] → out.channel.error = none ∧
    out.result = (match c.error with | some e => .error e | none => .ok none)

lemma holds_wakeWriter (h : c.Holds l) : c.wakeWriter.1.Holds l := by
  unfold wakeWriter
  split
  · exact h.congr rfl rfl rfl rfl rfl
  · exact h

lemma read_empty (h : c.Holds []) (limit : ℕ) :
    ∃ out, c.read limit = .ok out ∧ ReadSpec c [] limit out [] := by
  have hlen : c.len = 0 := h.len
  cases herr : c.error with
  | none =>
    refine ⟨⟨.ok none, c, []⟩, ?_, h, rfl, fun hne => absurd rfl hne, fun _ => ⟨herr, ?_⟩⟩
    · rw [read, if_pos hlen, herr]
    · rw [herr]
  | some e =>
    refine ⟨⟨.error e, { c with error := none }, []⟩, ?_, h.congr rfl rfl rfl rfl rfl, rfl,
      fun hne => absurd rfl hne, fun _ => ⟨rfl, ?_⟩⟩
    · rw [read, if_pos hlen, herr]
    · rw [herr]

lemma read_all (h : c.Holds (b :: l)) (hagg : limit ≥ bufferAggregationLimit ∧
    c.currentSize ≤ bufferAggregationLimit ∧ c.len > 1) :
    ∃ out, c.read limit = .ok out ∧ ReadSpec c (b :: l) limit out [] := by
  have hlen : ¬ c.len = 0 := by omega
  have hb : 1 ≤ b.length := List.length_pos_iff.mpr (h.nonempty b mem_cons_self)
  have hread : c.read limit = .ok ⟨.ok (some (b :: l).flatten), { c with
      currentSize := 0, ringProducer := 0, ringConsumer := 0, len := 0, writeWaker := none },
      c.writeWaker.toList⟩ := by
    rw [read, if_neg hlen, if_pos hagg, drain_eq h]
    rfl
  refine ⟨_, hread, ⟨Nat.succ_pos 1023, rfl, Nat.succ_pos 1023, trivial, rfl, rfl, by simp⟩,
    append_nil _, fun _ => ⟨_, rfl, ?_, ?_⟩, fun hnil => absurd hnil (cons_ne_nil b l)⟩
  · rw [flatten_cons, length_append]
    omega
  · have hsize := h.size
    omega

lemma read_some (h : c.Holds (b :: l)) (hlimit : 1 ≤ limit)
    (hagg : ¬ (limit ≥ bufferAggregationLimit ∧ c.currentSize ≤ bufferAggregationLimit ∧
      c.len > 1)) : ∃ out l', c.read limit = .ok out ∧ ReadSpec c (b :: l) limit out l' := by
  have hlen : ¬ c.len = 0 := by
    rw [h.len]
    exact Nat.succ_ne_zero _
  obtain ⟨buf, c', l', htake, hc', hbuf, hle, happend⟩ := takeUpTo_spec h hlimit
  have hassert : ((c'.currentSize == 0) ^^ (c'.len == 0)) = false := by
    have := hc'.size_eq_zero_iff
    by_cases h0 : c'.len = 0 <;> simp_all
  refine ⟨⟨.ok (some buf), c'.wakeWriter.1, c'.wakeWriter.2⟩, l', ?_, holds_wakeWriter hc', happend,
    fun _ => ⟨buf, rfl, List.length_pos_iff.mpr hbuf, hle⟩,
    fun hnil => absurd hnil (cons_ne_nil b l)⟩
  rw [read, if_neg hlen, if_neg hagg, htake]
  simp only [Except.bind, bind, hassert, Bool.false_eq_true, if_false]
  rfl

lemma read_spec (h : c.Holds l) (hlimit : 1 ≤ limit) :
    ∃ out l', c.read limit = .ok out ∧ ReadSpec c l limit out l' := by
  cases l with
  | nil =>
    obtain ⟨out, hread, hspec⟩ := read_empty h limit
    exact ⟨out, [], hread, hspec⟩
  | cons b l =>
    by_cases hagg : limit ≥ bufferAggregationLimit ∧ c.currentSize ≤ bufferAggregationLimit ∧
        c.len > 1
    · obtain ⟨out, hread, hspec⟩ := read_all h hagg
      exact ⟨out, [], hread, hspec⟩
    · exact read_some h hlimit hagg

/-! ### Writing -/

/-- A full ring stays as it is; whether the write fails depends on the state of the channel. -/
lemma write_full (hfull : c.isFull = true) (b : Bytes) : c.write b =
    .ok (if c.closed || c.error.isSome then .ok () else .error b, c, []) := by
  rw [write, if_pos hfull]
  split <;> rfl

lemma write_room (h : c.Holds l) (hfull : c.isFull = false) (hb : b ≠ []) :
    ∃ c' woken, c.write b = .ok (.ok (), c', woken) ∧ c'.Holds (l ++ [b]) := by
  have hne : c.nextProducerIndex ≠ c.ringConsumer := by
    rw [isFull, beq_eq_false_iff_ne] at hfull
    exact hfull
  have hwrite : c.write b = .ok (.ok (), { c with
      currentSize := c.currentSize + b.length
      buffers := Function.update c.buffers c.ringProducer (some b)
      ringProducer := c.nextProducerIndex
      len := c.len + 1
      readWaker := none }, c.readWaker.toList) := by
    rw [write, if_neg (by simp [hfull]), if_neg hne]
  exact ⟨_, _, hwrite, (h.push hfull hb).congr rfl rfl rfl rfl rfl⟩

lemma write_spec (h : c.Holds l) (hb : b ≠ []) : ∃ r c' woken, c.write b = .ok (r, c', woken) ∧
      c'.Holds (if c.isFull then l else l ++ [b]) := by
  cases hfull : c.isFull with
  | true => exact ⟨_, _, _, write_full hfull b, h⟩
  | false =>
    obtain ⟨c', woken, hwrite, hc'⟩ := write_room h hfull hb
    exact ⟨_, c', woken, hwrite, hc'⟩

/-- What `can_write` promises, a write keeps. -/
lemma writeUnwrap_of_canWrite (h : c.Holds l) (hcan : c.canWrite = true) (hb : b ≠ []) :
    ∃ c', c.writeUnwrap b = .ok c' := by
  unfold writeUnwrap
  cases hfull : c.isFull with
  | true =>
    have hopen : (c.closed || c.error.isSome) = true := by
      rw [canWrite, Bool.or_eq_true, Bool.and_eq_true, bne_iff_ne] at hcan
      rcases hcan with hcan | ⟨hne, _⟩
      · exact hcan
      · rw [isFull, beq_iff_eq] at hfull
        exact absurd hfull hne
    rw [write_full hfull, if_pos hopen]
    exact ⟨_, rfl⟩
  | false =>
    obtain ⟨c', woken, hwrite, _⟩ := write_room h hfull hb
    rw [hwrite]
    exact ⟨c', rfl⟩

/-- The operation that writes at once never panics. -/
lemma writeSync_ok (h : c.Holds l) (hb : b ≠ []) : ∃ code c', c.writeSync b = .ok (code, c') := by
  unfold writeSync
  split_ifs with hcan hclosed
  · exact ⟨0, c, rfl⟩
  · obtain ⟨c', hwrite⟩ := writeUnwrap_of_canWrite h hcan hb
    rw [hwrite]
    exact ⟨1, c', rfl⟩
  · exact ⟨2, c, rfl⟩

end BoundedBufferChannelInner

/-! ### Runs -/

open BoundedBufferChannelInner

/-- The operations on a channel; nothing empty is written, and a read wants something. -/
inductive ChannelOp (ω : Type) where
  | write (buffer : { b : Bytes // b ≠ [] })
  | read (limit : { n : ℕ // 1 ≤ n })
  | writeError (error : AnyError)
  | close
  | pollReadReady (waker : ω)
  | pollWriteReady (waker : ω)

/-- A channel in use: what was put into it and what was read so far. -/
structure ChannelRun (ω : Type) where
  channel : BoundedBufferChannelInner ω
  written : Bytes
  delivered : Bytes
  fault : Option ChannelFault

namespace ChannelRun

variable {ω : Type}

def fresh : ChannelRun ω := ⟨.new, [], [], none⟩

def step (s : ChannelRun ω) : ChannelOp ω → ChannelRun ω
  | .write buffer =>
    match s.channel.write buffer with
    | .ok (_, channel, _) => { s with
        channel := channel
        written := if s.channel.isFull then s.written else s.written ++ buffer }
    | .error fault => { s with fault := some fault }
  | .read limit =>
    match s.channel.read limit with
    | .ok out => { s with
        channel := out.channel
        delivered := s.delivered ++ returned out.result }
    | .error fault => { s with fault := some fault }
  | .writeError error => { s with channel := (s.channel.writeError error).1 }
  | .close => { s with channel := s.channel.close.1 }
  | .pollReadReady waker => { s with channel := (s.channel.pollReadReady waker).2 }
  | .pollWriteReady waker => { s with channel := (s.channel.pollWriteReady waker).2 }

/-- Nothing went wrong, and what was written was read or is still there. -/
def Sound (s : ChannelRun ω) : Prop :=
  s.fault = none ∧ ∃ l, s.channel.Holds l ∧ s.delivered ++ l.flatten = s.written

lemma sound_fresh : (fresh : ChannelRun ω).Sound := ⟨rfl, [], holds_new, rfl⟩

/-- A change of wakers, of the error or of `closed` is none for the queue. -/
lemma Sound.congr {s : ChannelRun ω} (h : s.Sound) {c : BoundedBufferChannelInner ω}
    (hc : ∀ l, s.channel.Holds l → c.Holds l) : Sound { s with channel := c } := by
  obtain ⟨hfault, l, hl, hbytes⟩ := h
  exact ⟨hfault, l, hc l hl, hbytes⟩

lemma Sound.step {s : ChannelRun ω} (h : s.Sound) (op : ChannelOp ω) : (s.step op).Sound := by
  cases op with
  | write buffer =>
    obtain ⟨hfault, l, hl, hbytes⟩ := h
    obtain ⟨r, c', woken, hwrite, hc'⟩ := write_spec hl buffer.2
    simp only [ChannelRun.step, hwrite]
    refine ⟨hfault, _, hc', ?_⟩
    split
    · exact hbytes
    · rw [flatten_append, flatten_singleton, ← append_assoc, hbytes]
  | read limit =>
    obtain ⟨hfault, l, hl, hbytes⟩ := h
    obtain ⟨out, l', hread, hspec⟩ := read_spec hl limit.2
    simp only [ChannelRun.step, hread]
    refine ⟨hfault, l', hspec.holds, ?_⟩
    rw [append_assoc, hspec.bytes, hbytes]
  | writeError error | close => exact h.congr fun l hl => hl.congr rfl rfl rfl rfl rfl
  | pollReadReady waker =>
    refine h.congr fun l hl => ?_
    unfold pollReadReady
    split <;> exact hl.congr rfl rfl rfl rfl rfl
  | pollWriteReady waker =>
    refine h.congr fun l hl => ?_
    unfold pollWriteReady
    split <;> exact hl.congr rfl rfl rfl rfl rfl

end ChannelRun

def channelMachine (ω : Type) : Machine (ChannelRun ω) (ChannelOp ω) := ⟨ChannelRun.step⟩

/-- The counters of a channel say what is stored in it. -/
structure BoundedBufferChannelInner.Accounted {ω : Type} (c : BoundedBufferChannelInner ω) :
    Prop where
  len_eq : (c.len : ℤ) = ((c.ringProducer : ℤ) - c.ringConsumer) % 1024
  len_le : c.len ≤ 1023
  size_eq : c.currentSize = (c.stored.map List.length).sum
  size_zero : c.currentSize = 0 ↔ c.len = 0

lemma BoundedBufferChannelInner.Holds.accounted {ω : Type} {c : BoundedBufferChannelInner ω}
    {l : List Bytes} (h : c.Holds l) : c.Accounted where
  len_eq := by
    have hproducer := h.producer
    have hroom := h.room
    rw [h.len]
    unfold bufferChannelSize at hproducer hroom
    omega
  len_le := by
    have hroom := h.room
    rw [h.len]
    unfold bufferChannelSize at hroom
    omega
  size_eq := by rw [h.stored_eq, h.size, length_flatten]
  size_zero := h.size_eq_zero_iff

/-- **The channel is a queue of bytes.** After any operations nothing has gone wrong, the bytes
read so far and those still stored are the ones that were put in, and the counters are right. A
read returns some of what is stored, and the error or nothing if nothing is; a write stores its
buffer unless the ring is full, and whenever `can_write` holds it can be unwrapped. -/
theorem channel_fifo {ω : Type} (ops : List (ChannelOp ω)) :
    let s := (channelMachine ω).run .fresh ops
    s.fault = none ∧ s.delivered ++ s.channel.stored.flatten = s.written ∧ s.channel.Accounted ∧
      (∀ limit, 1 ≤ limit → ∃ out, s.channel.read limit = .ok out ∧ (s.channel.stored ≠ [] →
          ∃ buf, out.result = .ok (some buf) ∧ 1 ≤ buf.length ∧ buf.length ≤ limit) ∧
        (s.channel.stored = [] → out.channel.error = none ∧ out.result =
          (match s.channel.error with | some e => .error e | none => .ok none))) ∧
      ∀ buffer, buffer ≠ [] →
        (∃ r channel woken, s.channel.write buffer = .ok (r, channel, woken) ∧ channel.stored =
          (if s.channel.isFull then s.channel.stored else s.channel.stored ++ [buffer])) ∧
        (s.channel.canWrite = true → ∃ result, s.channel.writeBuf buffer = .ok result) ∧
        ∃ result, s.channel.writeSync buffer = .ok result := by
  intro s
  obtain ⟨hfault, l, hl, hbytes⟩ : s.Sound :=
    Machine.run_invariant (fun s op h => h.step op) ChannelRun.sound_fresh ops
  rw [hl.stored_eq]
  refine ⟨hfault, hbytes, hl.accounted, fun limit hlimit => ?_,
    fun buffer hbuffer => ⟨?_, fun hcan => ?_, ?_⟩⟩
  · obtain ⟨out, l', hread, hspec⟩ := read_spec hl hlimit
    exact ⟨out, hread, hspec.some_of_stored, hspec.none_of_empty⟩
  · obtain ⟨r, channel, woken, hwrite, hchannel⟩ := write_spec hl hbuffer
    exact ⟨r, channel, woken, hwrite, hchannel.stored_eq⟩
  · obtain ⟨channel, hwrite⟩ := writeUnwrap_of_canWrite hl hcan hbuffer
    rw [writeBuf, hwrite]
    exact ⟨_, rfl⟩
  · obtain ⟨code, channel, hwrite⟩ := writeSync_ok hl hbuffer
    exact ⟨_, hwrite⟩

end Deno
