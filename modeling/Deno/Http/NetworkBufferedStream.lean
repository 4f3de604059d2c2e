import Deno.Core.Transport

/-!
# Peeking at the first bytes of a connection

A server reads from a connection until it knows whether the bytes start with the preface of
HTTP/2. What it has read is put in front of the connection again, by a stream that serves those
bytes first.
-/

namespace Deno

open Core List

def maxPrefixSize : ℕ := 256

/-- A stream with some bytes in front. The buffer is its initialized part. -/
structure NetworkBufferedStream (ε : Type) where
  prefixBuffer : Bytes
  io : Transport ε
  initializedLen : ℕ
  prefixOffset : ℕ
  prefixRead : Bool

structure NetworkStreamPrefixCheck (ε : Type) where
  io : Transport ε
  prefixBytes : Bytes

variable {ε : Type}

namespace NetworkBufferedStream

def new (io : Transport ε) (prefixBuffer : Bytes) (initializedLen : ℕ) :
    NetworkBufferedStream ε where
  prefixBuffer := prefixBuffer
  io := io
  initializedLen := initializedLen
  prefixOffset := 0
  prefixRead := false

variable (self : NetworkBufferedStream ε)

/-- The bytes still in front; there are none if the slice is out of range. -/
def currentSlice : Option Bytes :=
  if self.prefixOffset ≤ self.initializedLen ∧ self.initializedLen ≤ self.prefixBuffer.length then
    some ((self.prefixBuffer.take self.initializedLen).drop self.prefixOffset)
  else none

def intoInner : Option (Transport ε × Bytes) :=
  self.currentSlice.map fun bytes => (self.io, bytes)

/-- The end of `poll_read`: the wrapped stream is polled. -/
def pollIo (room : ℕ) : Poll ε × NetworkBufferedStream ε :=
  let (poll, io) := self.io.pollRead room
  (poll, { self with io := io })

/-- `poll_read` with room for the given number of bytes. -/
def pollRead (room : ℕ) : Option (Poll ε × NetworkBufferedStream ε) := do
  if self.prefixRead then return self.pollIo room
  else
    let slice ← self.currentSlice
    if slice.isEmpty then return { self with prefixRead := true }.pollIo room
    else
      let copyLen := min slice.length room
      return (.ready (slice.take copyLen),
        { self with prefixOffset := self.prefixOffset + copyLen })

/-- Poll with one buffer after the other; the bytes that are read. -/
def readAll (self : NetworkBufferedStream ε) : List ℕ → Option (Bytes × NetworkBufferedStream ε)
  | [] => some ([], self)
  | room :: rooms => do
    let (poll, self) ← self.pollRead room
    let (bytes, self) ← self.readAll rooms
    return (poll.bytes ++ bytes, self)

end NetworkBufferedStream

namespace NetworkStreamPrefixCheck

inductive State where
  | unknown
  | matched
  | notMatched
  deriving DecidableEq

/-- What is known after a read that found `filledLen` bytes in the buffer and left it `filled`. -/
def stateOf (prefixBytes : Bytes) (filledLen : ℕ) (filled : Bytes) : State :=
  -- nothing was read: the stream is at its end
  if filled.length = filledLen then .notMatched
  else if filled.length < prefixBytes.length then
    if filled.isPrefixOf prefixBytes then .unknown else .notMatched
  else if prefixBytes.isPrefixOf filled then .matched
  else .notMatched

/-- The loop of `match_prefix`, the buffer filled so far. A poll that is pending is made again. -/
def matchLoop (prefixBytes filled : Bytes) (io : Transport ε) :
    Except ε (Bool × NetworkBufferedStream ε) :=
  match _hpoll : io.pollRead (2 * maxPrefixSize - filled.length) with
  | (.pending, io') => matchLoop prefixBytes filled io'
  | (.failed error, _) => .error error
  | (.ready bytes, io') =>
    match _hstate : stateOf prefixBytes filled.length (filled ++ bytes) with
    | .unknown => matchLoop prefixBytes (filled ++ bytes) io'
    | .matched => .ok (true, .new io' (filled ++ bytes) (filled ++ bytes).length)
    | .notMatched => .ok (false, .new io' (filled ++ bytes) (filled ++ bytes).length)
termination_by io.weight
decreasing_by
  · cases Transport.PollRule.of_pollRead _hpoll with
    | pending _ _ _ hweight => exact hweight
  · cases Transport.PollRule.of_pollRead _hpoll with
    | data _ _ hne _ _ _ hweight =>
      have := List.length_pos_iff.mpr hne
      omega
    | noRoom _ | closed _ _ => simp [stateOf] at _hstate

def matchPrefix (self : NetworkStreamPrefixCheck ε) : Except ε (Bool × NetworkBufferedStream ε) :=
  matchLoop self.prefixBytes [] self.io

end NetworkStreamPrefixCheck

/-! ### Reading behind the bytes in front -/

variable {n : ℕ}

namespace NetworkBufferedStream

variable {s : NetworkBufferedStream ε} {slice : Bytes}

/-- A stream that still serves `slice` before its wrapped stream. -/
structure Serves (s : NetworkBufferedStream ε) (slice : Bytes) : Prop where
  currentSlice : s.currentSlice = some slice
  empty_of_read : s.prefixRead = true → slice = []

lemma serves_new (io : Transport ε) (filled : Bytes) :
    (new io filled filled.length).Serves filled where
  currentSlice := by simp [new, NetworkBufferedStream.currentSlice]
  empty_of_read := fun h => by cases h

/-- What is still to be read from a stream that serves `slice`. -/
def rest (s : NetworkBufferedStream ε) (slice : Bytes) : Bytes := slice ++ s.io.bytes

/-- A bound on the polls that get somewhere. -/
def weight (s : NetworkBufferedStream ε) (slice : Bytes) : ℕ := slice.length + s.io.weight

/-- What a poll does to a stream: bytes move from the front of what is to be read, and with room
for some the reader gets on. -/
structure PollSpec (s : NetworkBufferedStream ε) (slice : Bytes) (room : ℕ) (poll : Poll ε)
    (s' : NetworkBufferedStream ε) (slice' : Bytes) : Prop where
  serves : s'.Serves slice'
  bytes : poll.bytes ++ s'.rest slice' = s.rest slice
  progress : 0 < room → s.rest slice ≠ [] → s'.weight slice' < s.weight slice

lemma pollIo_spec (h : s.Serves []) (room : ℕ) :
    PollSpec s [] room (s.pollIo room).1 (s.pollIo room).2 [] := by
  rcases hpoll : s.io.pollRead room with ⟨poll, io'⟩
  have hrule := Transport.PollRule.of_pollRead hpoll
  rw [pollIo, hpoll]
  refine ⟨⟨h.currentSlice, h.empty_of_read⟩, ?_, fun hroom hne => ?_⟩
  · cases hrule with
    | pending _ hbytes | data _ _ _ _ hbytes => exact hbytes
    | noRoom _ | closed _ _ | failed _ _ _ => rfl
  · cases hrule with
    | pending _ _ _ hweight => exact Nat.add_lt_add_left hweight _
    | data _ _ hpiece _ _ _ hweight =>
      have := List.length_pos_iff.mpr hpiece
      simp only [weight]
      omega
    | noRoom h0 => omega
    | closed hbytes _ | failed _ hbytes _ => exact absurd hbytes hne

/-- The bytes in front are served up to the room there is. -/
lemma serves_advance (h : s.Serves slice) (hread : s.prefixRead = false) (hn : n ≤ slice.length) :
    Serves { s with prefixOffset := s.prefixOffset + n } (slice.drop n) where
  currentSlice := by
    have hslice := h.currentSlice
    unfold NetworkBufferedStream.currentSlice at hslice ⊢
    split_ifs at hslice with hrange
    cases hslice
    rw [length_drop, length_take] at hn
    rw [if_pos ⟨by dsimp only; omega, hrange.2⟩, drop_drop]
  empty_of_read := fun h => by
    rw [hread] at h
    cases h

lemma pollRead_spec (h : s.Serves slice) (room : ℕ) :
    ∃ poll s' slice', s.pollRead room = some (poll, s') ∧ PollSpec s slice room poll s' slice' := by
  cases hread : s.prefixRead with
  | true =>
    obtain rfl := h.empty_of_read hread
    refine ⟨_, _, [], ?_, pollIo_spec h room⟩
    rw [pollRead, if_pos hread]
    rfl
  | false =>
    cases slice with
    | nil =>
      have hserves : ({ s with prefixRead := true } : NetworkBufferedStream ε).Serves [] :=
        ⟨h.currentSlice, fun _ => rfl⟩
      obtain ⟨hs, hb, hp⟩ := pollIo_spec hserves room
      refine ⟨_, _, [], ?_, hs, hb, hp⟩
      rw [pollRead, if_neg (by simp [hread]), h.currentSlice]
      rfl
    | cons b bs =>
      have hmin : min (b :: bs).length room ≤ (b :: bs).length := Nat.min_le_left _ _
      refine ⟨.ready ((b :: bs).take (min (b :: bs).length room)), _, _, ?_,
        serves_advance h hread hmin, ?_, fun hroom _ => ?_⟩
      · rw [pollRead, if_neg (by simp [hread]), h.currentSlice]
        rfl
      · rw [rest, rest, Poll.bytes, ← append_assoc, take_append_drop]
      · rw [weight, weight, length_drop]
        have : 0 < (b :: bs).length := Nat.succ_pos _
        dsimp only
        omega

/-- Whatever the sizes of the buffers, the bytes are read in order; enough buffers that are not
empty get all of them. -/
lemma readAll_spec (h : s.Serves slice) (rooms : List ℕ) :
    ∃ bytes s' slice', s.readAll rooms = some (bytes, s') ∧ s'.Serves slice' ∧
      bytes ++ s'.rest slice' = s.rest slice ∧
      ((∀ room ∈ rooms, 0 < room) → s.weight slice ≤ rooms.length → s'.rest slice' = []) := by
  induction rooms generalizing s slice with
  | nil =>
    refine ⟨[], s, slice, rfl, h, rfl, fun _ hweight => ?_⟩
    rw [weight, Transport.weight, length_nil] at hweight
    rw [rest, append_eq_nil_iff, ← length_eq_zero_iff, ← length_eq_zero_iff]
    omega
  | cons room rooms ih =>
    obtain ⟨poll, s₁, slice₁, hpoll, hserves, hbytes, hprogress⟩ := pollRead_spec h room
    obtain ⟨bytes, s₂, slice₂, hread, hserves₂, hbytes₂, hall⟩ := ih hserves
    refine ⟨poll.bytes ++ bytes, s₂, slice₂, ?_, hserves₂, ?_, fun hrooms hweight => ?_⟩
    · rw [readAll, hpoll]
      simp only [bind, Option.bind, hread]
      rfl
    · rw [append_assoc, hbytes₂, hbytes]
    · by_cases hnil : s.rest slice = []
      · -- nothing is left from the start
        rw [hnil, append_eq_nil_iff] at hbytes
        rw [hbytes.2, append_eq_nil_iff] at hbytes₂
        exact hbytes₂.2
      · have hlt := hprogress (hrooms room mem_cons_self) hnil
        rw [length_cons] at hweight
        exact hall (fun room' hroom => hrooms room' (mem_cons_of_mem room hroom)) (by omega)

end NetworkBufferedStream

/-! ### Matching -/

namespace NetworkStreamPrefixCheck

open NetworkBufferedStream

variable {prefixBytes filled : Bytes} {io : Transport ε}

inductive MatchRule (prefixBytes filled : Bytes) (io : Transport ε) :
    Except ε (Bool × NetworkBufferedStream ε) → Prop where
  | answered (matched : Bool) (s : NetworkBufferedStream ε) (slice : Bytes)
      (hserves : s.Serves slice) (hrest : s.rest slice = filled ++ io.bytes)
      (hweight : s.weight slice ≤ filled.length + io.weight)
      (hmatched : matched = true ↔ prefixBytes <+: filled ++ io.bytes) :
      MatchRule prefixBytes filled io (.ok (matched, s))
  | failed (error : ε) (hfailure : io.failure = some error)
      (hshort : (filled ++ io.bytes).length < prefixBytes.length) :
      MatchRule prefixBytes filled io (.error error)

lemma of_stateOf_unknown (h : stateOf prefixBytes n filled = .unknown) :
    filled.length < prefixBytes.length := by
  unfold stateOf at h
  split_ifs at h with _ hlt
  exact hlt

lemma of_stateOf_matched (h : stateOf prefixBytes n filled = .matched) :
    prefixBytes <+: filled := by
  unfold stateOf at h
  split_ifs at h with _ _ _ hpre
  exact List.isPrefixOf_iff_prefix.mp hpre

/-- Once there is no match, no further bytes make one. -/
lemma of_stateOf_notMatched (h : stateOf prefixBytes n filled = .notMatched)
    (hn : filled.length ≠ n) (more : Bytes) : ¬ prefixBytes <+: filled ++ more := by
  unfold stateOf at h
  split_ifs at h with heq hlt hpre hpre
  · exact absurd heq hn
  · intro hmatch
    have := prefix_of_prefix_length_le (prefix_append filled more) hmatch (Nat.le_of_lt hlt)
    exact hpre (List.isPrefixOf_iff_prefix.mpr this)
  · intro hmatch
    have := prefix_of_prefix_length_le hmatch (prefix_append filled more) (Nat.le_of_not_lt hlt)
    exact hpre (List.isPrefixOf_iff_prefix.mpr this)

/-- The rule for a stream made of the bytes read so far and the rest of the transport. -/
lemma MatchRule.of_new {io' : Transport ε} {matched : Bool} {filled' : Bytes}
    (hbytes : filled' ++ io'.bytes = filled ++ io.bytes)
    (hweight : filled'.length + io'.weight ≤ filled.length + io.weight)
    (hmatched : matched = true ↔ prefixBytes <+: filled ++ io.bytes) :
    MatchRule prefixBytes filled io (.ok (matched, .new io' filled' filled'.length)) :=
  .answered matched _ filled' (serves_new io' filled') hbytes hweight hmatched

/-- Bytes that only moved from the transport to the buffer make no difference. -/
lemma MatchRule.mono {io' : Transport ε} {filled' : Bytes}
    {r : Except ε (Bool × NetworkBufferedStream ε)}
    (hbytes : filled' ++ io'.bytes = filled ++ io.bytes)
    (hweight : filled'.length + io'.weight ≤ filled.length + io.weight)
    (hfailure : io'.failure = io.failure) (h : MatchRule prefixBytes filled' io' r) :
    MatchRule prefixBytes filled io r := by
  cases h with
  | answered matched s slice hserves hrest hweight' hmatched =>
    rw [hbytes] at hrest hmatched
    exact .answered matched s slice hserves hrest (Nat.le_trans hweight' hweight) hmatched
  | failed error hfailure' hshort =>
    rw [hbytes] at hshort
    exact .failed error (hfailure ▸ hfailure') hshort

theorem MatchRule.of_matchLoop (hlt : prefixBytes.length < maxPrefixSize)
    (hshort : filled.length < prefixBytes.length) :
    MatchRule prefixBytes filled io (matchLoop prefixBytes filled io) := by
  -- the induction is that of the loop: less than what has to be matched is in the buffer, so
  -- there is always room
  fun_induction matchLoop prefixBytes filled io with
  | case1 filled io io' hpoll ih =>
    cases Transport.PollRule.of_pollRead hpoll with
    | pending _ hbytes hfailure hweight =>
      exact (ih hshort).mono (by rw [hbytes]) (by omega) hfailure
  | case2 filled io error io' hpoll =>
    cases Transport.PollRule.of_pollRead hpoll with
    | failed _ hbytes hfailure =>
      refine .failed error hfailure ?_
      rw [hbytes, append_nil]
      exact hshort
  | case3 filled io bytes io' hpoll hstate ih =>
    have hshort' := of_stateOf_unknown hstate
    cases Transport.PollRule.of_pollRead hpoll with
    | data _ _ hne _ hbytes hfailure hweight =>
      refine (ih hshort').mono ?_ ?_ hfailure
      · rw [append_assoc, hbytes]
      · rw [length_append]
        omega
    | noRoom _ | closed _ _ => simp [stateOf] at hstate
  | case4 filled io bytes io' hpoll hstate =>
    have hmatch := of_stateOf_matched hstate
    cases Transport.PollRule.of_pollRead hpoll with
    | data _ _ hne _ hbytes hfailure hweight =>
      have hbytes' : filled ++ bytes ++ io'.bytes = filled ++ io.bytes := by
        rw [append_assoc, hbytes]
      refine .of_new hbytes' ?_ (iff_of_true rfl ?_)
      · rw [length_append]
        omega
      · rw [← hbytes']
        exact hmatch.trans (prefix_append _ _)
    | noRoom _ | closed _ _ => simp [stateOf] at hstate
  | case5 filled io bytes io' hpoll hstate =>
    cases Transport.PollRule.of_pollRead hpoll with
    | data _ _ hne _ hbytes hfailure hweight =>
      have hbytes' : filled ++ bytes ++ io'.bytes = filled ++ io.bytes := by
        rw [append_assoc, hbytes]
      refine .of_new hbytes' ?_ (iff_of_false Bool.false_ne_true ?_)
      · rw [length_append]
        omega
      · rw [← hbytes']
        refine of_stateOf_notMatched hstate ?_ io'.bytes
        rw [length_append]
        have := List.length_pos_iff.mpr hne
        omega
    | noRoom h0 => omega
    | closed hbytes hfailure =>
      -- the stream ended before there was enough to match
      have hnil : filled ++ [] ++ io.bytes = filled ++ io.bytes := by rw [append_nil]
      refine .of_new hnil ?_ (iff_of_false Bool.false_ne_true fun hmatch => ?_)
      · simp
      · have := hmatch.length_le
        rw [hbytes, append_nil] at this
        omega

/-- Peeking loses nothing: the answer says whether the stream starts with the given bytes, and
whatever is then read, followed by what `into_inner` hands out, is the stream from its start. -/
theorem matchPrefix_lossless (io : Transport ε) (prefixBytes : Bytes) (hne : prefixBytes ≠ [])
    (hlt : prefixBytes.length < maxPrefixSize) :
    ((∃ s, matchPrefix ⟨io, prefixBytes⟩ = .ok (true, s)) ↔ prefixBytes <+: io.bytes) ∧
      (∀ error, matchPrefix ⟨io, prefixBytes⟩ = .error error → io.failure = some error) ∧
      ∀ matched s, matchPrefix ⟨io, prefixBytes⟩ = .ok (matched, s) → ∀ rooms : List ℕ,
        ∃ bytes s', s.readAll rooms = some (bytes, s') ∧
          (∃ io' slice, s'.intoInner = some (io', slice) ∧ bytes ++ slice ++ io'.bytes = io.bytes) ∧
          ((∀ room ∈ rooms, 0 < room) → io.weight ≤ rooms.length → bytes = io.bytes) := by
  have hrule : MatchRule prefixBytes [] io (matchPrefix ⟨io, prefixBytes⟩) :=
    .of_matchLoop hlt (List.length_pos_iff.mpr hne)
  generalize matchPrefix ⟨io, prefixBytes⟩ = r at hrule ⊢
  cases hrule with
  | failed error hfailure hshort =>
    refine ⟨⟨?_, fun hmatch => ?_⟩, ?_, ?_⟩
    · rintro ⟨s, h⟩
      cases h
    · exact absurd hmatch.length_le (Nat.not_le_of_lt hshort)
    · rintro _ ⟨⟩
      exact hfailure
    · rintro _ _ ⟨⟩
  | answered matched s slice hserves hrest hweight hmatched =>
    refine ⟨⟨?_, fun hmatch => ?_⟩, ?_, ?_⟩
    · rintro ⟨_, ⟨⟩⟩
      exact hmatched.mp rfl
    · obtain rfl := hmatched.mpr hmatch
      exact ⟨s, rfl⟩
    · rintro _ ⟨⟩
    · rintro _ _ ⟨⟩ rooms
      obtain ⟨bytes, s', slice', hread, hserves', hbytes, hall⟩ := readAll_spec hserves rooms
      rw [hrest] at hbytes
      refine ⟨bytes, s', hread, ⟨s'.io, slice', ?_, ?_⟩, fun hrooms hlen => ?_⟩
      · rw [intoInner, hserves'.currentSlice]
        rfl
      · rw [append_assoc]
        exact hbytes
      · rw [hall hrooms (by rw [length_nil] at hweight; omega), append_nil] at hbytes
        exact hbytes

/-- Two bytes that come in two pieces, with a third behind them. -/
theorem matchPrefix_lossless_pieces :
    (∃ s, matchPrefix (⟨⟨[.chunk [1] (by decide), .pending, .chunk [2, 3] (by decide)], none⟩,
      [1, 2]⟩ : NetworkStreamPrefixCheck Unit) = .ok (true, s)) :=
  (matchPrefix_lossless ⟨[.chunk [1] (by decide), .pending, .chunk [2, 3] (by decide)], none⟩
    [1, 2] (by decide) (by decide)).1.mpr (by decide)

end NetworkStreamPrefixCheck

end Deno
