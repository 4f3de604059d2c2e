import Deno.Core.PathText
import Deno.Core.Url

/-!
# Directories for URLs

The local directory for a URL is named after its domain and its port, with the parts of its path
below. Characters that some file systems do not support are replaced.
-/

namespace Deno

open Core List

/-- Characters that are not supported on all kinds of file systems. -/
def isBannedPathChar (c : Char) : Bool := ['<', '>', ':', '"', '|', '?', '*'].contains c

namespace SafeDirname

def isBannedSegmentChar (c : Char) : Bool := c == '/' || c == '\\' || isBannedPathChar c

def sanitizeSegment (text : List Char) : List Char :=
  text.map fun c => if isBannedSegmentChar c then '_' else c

def domain (url : Url) : Option (List Char) :=
  match url.authority with
  | some { host := .domain name, .. } => some name
  | _ => none

def port (url : Url) : Option ℕ := url.authority.bind (·.port)

def pathSegments (url : Url) : Option (List (List Char)) :=
  match url.path with
  | '/' :: rest => some (rest.splitOn '/')
  | _ => none

def hostDirname (root : Url) : List Char :=
  let result := (domain root).elim [] sanitizeSegment
  match port root with
  | none => result
  | some port => (if result = [] then result else result ++ ['_']) ++ Nat.toDigits 10 port

end SafeDirname

open SafeDirname

def rootUrlToSafeLocalDirname (root : Url) : Path :=
  (((pathSegments root).getD []).filter (· ≠ [])).foldl
    (fun result segment => result.join (.ofString (String.ofList (sanitizeSegment segment))))
    (.ofString (String.ofList (hostDirname root)))

/-! ### Components -/

namespace SafeDirname

variable {root : Url} {w text : List Char}

lemma sanitizeSegment_eq_self (h : ∀ c ∈ text, isBannedSegmentChar c = false) :
    sanitizeSegment text = text := by
  conv_rhs => rw [← map_id text]
  refine map_congr_left fun c hc => ?_
  rw [h c hc]
  rfl

def dirnames (root : Url) : List (List Char) :=
  (if hostDirname root = [] then [] else [hostDirname root]) ++
    (((pathSegments root).getD []).filter (· ≠ [])).map sanitizeSegment

lemma comps_foldl_join (ws : List (List Char)) (h : ∀ w ∈ ws, Path.IsName w) (p : Path) :
    (ws.foldl (fun result w => result.join (.ofString (String.ofList w))) p).comps =
      p.comps ++ ws.map Path.named := by
  induction ws generalizing p with
  | nil => simp
  | cons w ws ih =>
    rw [forall_mem_cons] at h
    rw [foldl_cons, ih h.2, Path.comps_join_name p h.1, map_cons, append_assoc, singleton_append]

lemma comps_rootUrlToSafeLocalDirname (h : ∀ w ∈ dirnames root, Path.IsName w) :
    (rootUrlToSafeLocalDirname root).comps = (dirnames root).map Path.named := by
  have hfold (p : Path) (ws : List (List Char)) :
      ws.foldl (fun result w => result.join (.ofString (String.ofList (sanitizeSegment w)))) p =
        (ws.map sanitizeSegment).foldl
          (fun result w => result.join (.ofString (String.ofList w))) p := by
    rw [foldl_map]
  rw [dirnames, forall_mem_append] at h
  rw [rootUrlToSafeLocalDirname, hfold, comps_foldl_join _ h.2, dirnames, map_append]
  congr 1
  split_ifs at h ⊢ with hempty
  · rw [hempty]
    rfl
  · exact Path.comps_ofString_name (h.1 _ mem_cons_self)

end SafeDirname

end Deno
