import Deno.Core.Whitespace
import Mathlib.Algebra.Ring.Int.Defs
import Mathlib.Algebra.Ring.Nat
import Mathlib.Order.Lattice

/-!
# Freshness of cached files

`CacheSemantics` tells from the headers of a cached file, the time it was cached at and the present
time if it can be used. Durations are in nanoseconds, and a time is the one since the epoch.
-/

namespace Deno

open Core

inductive Cachability where
  | pub
  | priv
  | noCache
  | onlyIfCached
  deriving DecidableEq

structure CacheControl where
  cachability : Option Cachability := none
  maxAge : Option ℕ := none
  minFresh : Option ℕ := none
  maxStale : Option ℕ := none

/-- What other crates read from the value of a header (`parse_from_rfc2822` gives a time in
seconds), and a tenth of a number as its product with the `f64` 0.1. -/
structure HeaderParsers where
  cacheControl : List Char → Option CacheControl
  number : List Char → Option ℕ
  date : List Char → Option ℤ
  tenth : ℕ → ℕ

def fromSecs (secs : ℕ) : ℕ := secs * 10 ^ 9

/-- The durations that can be represented. -/
def durationLimit : ℕ := fromSecs (2 ^ 64)

/-- `SystemTime::duration_since`, which fails if the other time is later. -/
def durationSince (time earlier : ℤ) : Option ℕ :=
  if earlier ≤ time then some (time - earlier).toNat else none

structure CacheSemantics where
  cacheControl : CacheControl
  cached : ℤ
  headers : String → Option (List Char)
  now : ℤ

namespace CacheSemantics

variable (parsers : HeaderParsers)

def new (headers : String → Option (List Char)) (cached now : ℤ) : CacheSemantics where
  cacheControl := ((headers "cache-control").bind parsers.cacheControl).getD {}
  cached := cached
  headers := headers
  now := now

variable (self : CacheSemantics)

def ageHeaderValue : ℕ := fromSecs (((self.headers "age").bind parsers.number).getD 0)

/-- The sum panics if it cannot be represented. -/
def age : Option ℕ :=
  match durationSince self.now self.cached with
  | some residentTime =>
    if self.ageHeaderValue parsers + residentTime < durationLimit then
      some (self.ageHeaderValue parsers + residentTime)
    else none
  | none => some (self.ageHeaderValue parsers)

/-- The timestamp is taken for a `u64`, so that one before the epoch is too late to be added. -/
def rawServerDate : ℤ :=
  (((self.headers "date").bind parsers.date).bind fun timestamp =>
    let secs := (timestamp % 2 ^ 64).toNat
    if secs < 2 ^ 63 then some (fromSecs secs : ℤ) else none).getD self.cached

def maxAge : ℕ :=
  if self.cacheControl.cachability = some .noCache then 0
  else if (self.headers "vary").map trim = some ['*'] then 0
  else
    match self.cacheControl.maxAge with
    | some maxAge => maxAge
    | none =>
      match self.headers "expires" with
      | some expires =>
        match parsers.date expires with
        | none => 0
        | some timestamp =>
          (durationSince (fromSecs (max timestamp 0).toNat) (self.rawServerDate parsers)).getD 0
      | none =>
        match (self.headers "last-modified").bind parsers.date with
        | some timestamp =>
          match durationSince (self.rawServerDate parsers) (fromSecs (max timestamp 0).toNat) with
          | some diff => fromSecs (parsers.tenth (diff / 10 ^ 9))
          | none => 0
        | none => 0

def usable (age : ℕ) : Bool :=
  let maxAge := self.maxAge parsers
  if self.cacheControl.maxAge.any (· < age) then false
  else if self.cacheControl.minFresh.any (maxAge - age < ·) then false
  else if maxAge ≤ age then self.cacheControl.maxStale.any (age - maxAge < ·)
  else true

def shouldUse : Option Bool :=
  if self.cacheControl.cachability = some .noCache then some false
  else (self.age parsers).map (self.usable parsers)

variable {parsers self}

lemma usable_of_le {age age' : ℕ} (hle : age ≤ age') (h : self.usable parsers age' = true) :
    self.usable parsers age = true := by
  have hany {limit : Option ℕ} {p q : ℕ → Prop} [DecidablePred p] [DecidablePred q]
      (hpq : ∀ n, p n → q n) (hp : limit.any (p ·) = true) : limit.any (q ·) = true := by
    obtain ⟨n, hn, hp⟩ := (Option.any_eq_true _ _).mp hp
    exact (Option.any_eq_true _ _).mpr ⟨n, hn, decide_eq_true (hpq n (of_decide_eq_true hp))⟩
  simp only [usable] at h ⊢
  split_ifs at h with hmax hfresh hstale
  all_goals
    rw [if_neg (mt (hany fun n hn => Nat.lt_of_lt_of_le hn hle) hmax),
      if_neg (mt (hany fun n hn => by omega) hfresh)]
  · split_ifs with hold
    · exact hany (fun n hn => by omega) h
    · rfl
  · exact if_neg fun hold => hstale (hold.trans hle)

/-- The age grows with the time, and can be represented before a time at which it can be. -/
lemma age_of_le {self' : CacheSemantics} {age' : ℕ} (h : self'.age parsers = some age')
    (hheaders : self'.headers = self.headers) (hcached : self'.cached = self.cached)
    (hle : self.now ≤ self'.now) : ∃ age ≤ age', self.age parsers = some age := by
  have hheader : self'.ageHeaderValue parsers = self.ageHeaderValue parsers := by
    rw [ageHeaderValue, hheaders, ageHeaderValue]
  rw [age, hheader, hcached, durationSince] at h
  rw [age, durationSince]
  by_cases hresident : self.cached ≤ self.now
  · rw [if_pos (hresident.trans hle)] at h
    rw [if_pos hresident]
    dsimp only at h ⊢
    split_ifs at h with hlimit
    obtain rfl := Option.some.inj h
    have hsum : self.ageHeaderValue parsers + (self.now - self.cached).toNat ≤
        self.ageHeaderValue parsers + (self'.now - self.cached).toNat := by omega
    exact ⟨_, hsum, if_pos (hsum.trans_lt hlimit)⟩
  · rw [if_neg hresident]
    refine ⟨_, ?_, rfl⟩
    split at h
    · split_ifs at h
      exact Option.some.inj h ▸ Nat.le_add_right _ _
    · exact (Option.some.inj h).le

/-- A cached file that can be used could be used at any time before. -/
theorem shouldUse_of_le (parsers : HeaderParsers) (headers : String → Option (List Char))
    (cached : ℤ) {now now' : ℤ} (hle : now ≤ now')
    (h : (new parsers headers cached now').shouldUse parsers = some true) :
    (new parsers headers cached now).shouldUse parsers = some true := by
  unfold shouldUse at h ⊢
  split_ifs at h with hcache
  · cases h
  · obtain ⟨age', hage', husable⟩ := Option.map_eq_some_iff.mp h
    obtain ⟨age, hle, hage⟩ :
        ∃ age ≤ age', (new parsers headers cached now).age parsers = some age :=
      age_of_le hage' rfl rfl hle
    rw [hage, if_neg]
    · exact congrArg some (usable_of_le hle husable)
    · exact hcache

/-- A file that is ten seconds old when it is cached, and may be used for less than two seconds. -/
theorem shouldUse_of_le_stale : let parsers : HeaderParsers :=
      ⟨fun _ => some { maxStale := some (fromSecs 12) }, fun _ => some 10, fun _ => none, id⟩
    let used now := (new parsers (fun _ => some []) 0 now).shouldUse parsers
    used 1999999999 = some true ∧ used (-1) = some true ∧ used 2000000000 = some false := by
  intro parsers used
  have hused : used 1999999999 = some true := by decide
  exact ⟨hused, shouldUse_of_le parsers _ 0 (by decide) hused, by decide⟩

end CacheSemantics

end Deno
