import Deno.Core.HashSet
import Deno.Core.Path
import Deno.Permissions.State

/-!
# Descriptors

A descriptor names one thing a permission is about: a path, a host, an environment variable, a
kind of system information or an executable. The seven descriptor types share one interface,
`Descriptor`; each of them is a value of it, for a given `Host` in which the program runs.
-/

namespace Deno

open Core

/-- What the permission code asks of its surroundings: the working directory, the search for an
executable, path normalization, and the parsers of host names and of URL authorities. -/
structure Host where
  currentDir : Option Path
  normalizePath : Path → Path
  which : String → Option Path
  /-- The canonical form of a fully qualified domain name; `none` on an invalid name. -/
  fqdn : String → Option String
  /-- Host and port of an authority, as of a URL of unknown scheme. -/
  parseAuthority : String → Except AnyError (Option String × Option UInt16)

/-- A surrounding in which nothing has to be looked up. -/
def Host.bare : Host where
  currentDir := none
  normalizePath := id
  which _ := none
  fqdn := some
  parseAuthority s := .ok (some s, none)

/-- The interface of a descriptor type: how it is parsed from the command line, how descriptors
compare, and the other descriptors that stand for the same thing. -/
structure Descriptor (T : Type) where
  Arg : Type
  argOfString : String → Arg
  parse : Option (List Arg) → Except AnyError (HashSet T)
  /-- Whether `check_in_permission` rejects a partially denied descriptor. -/
  assertNonPartial : Bool
  flagName : String
  name : T → String
  strongerThan : T → T → Bool
  aliases : T → List T

/-! ### The descriptor types -/

structure ReadDescriptor where
  path : Path
  deriving DecidableEq

structure WriteDescriptor where
  path : Path
  deriving DecidableEq

structure FfiDescriptor where
  path : Path
  deriving DecidableEq

/-- A domain name in canonical form, which is what equality compares. -/
structure FQDN where
  canonical : String
  deriving DecidableEq

structure NetDescriptor where
  host : FQDN
  port : Option UInt16
  deriving DecidableEq

structure EnvDescriptor where
  inner : String
  deriving DecidableEq

structure SysDescriptor where
  kind : String
  deriving DecidableEq

inductive RunDescriptor where
  | name (name : String)
  | path (path : Path)
  deriving DecidableEq

/-! ### Parsing -/

variable (host : Host)

def resolveFromCwd (path : Path) : Except AnyError Path :=
  if path.isAbsolute then .ok (host.normalizePath path)
  else
    match host.currentDir with
    | none => .error (.msg "Failed to get current working directory")
    | some cwd => .ok (host.normalizePath (cwd.join path))

/-- A list option read element by element; the first error wins, a missing option is empty. -/
def parseList {A T : Type} [DecidableEq T] (f : A → Except AnyError T) :
    Option (List A) → Except AnyError (HashSet T)
  | none => .ok .empty
  | some v => (v.mapM f).map HashSet.ofList

def parsePathList {T : Type} [DecidableEq T] (host : Host) (f : Path → T) :
    Option (List Path) → Except AnyError (HashSet T) :=
  parseList fun rawPath =>
    if rawPath.isEmpty then .error (.msg "Empty path is not allowed")
    else (resolveFromCwd host rawPath).map f

/-- `fqdn!`, which panics on an invalid name. -/
def Host.fqdnOf (name : String) : Except AnyError FQDN :=
  match host.fqdn name with
  | none => .error (.panic "invalid FQDN")
  | some n => .ok ⟨n⟩

def NetDescriptor.new (h : String × Option UInt16) : Except AnyError NetDescriptor :=
  (host.fqdnOf h.1).map fun name => ⟨name, h.2⟩

/-- `NetDescriptor::from_str`. -/
def NetDescriptor.ofString (s : String) : Except AnyError NetDescriptor :=
  match host.parseAuthority s with
  | .error e => .error e
  | .ok (none, _) => .error (.msg "empty host")
  | .ok (some hostname, prt) => NetDescriptor.new host (hostname, prt)

def parseNetList : Option (List String) → Except AnyError (HashSet NetDescriptor) :=
  parseList (NetDescriptor.ofString host)

/-- `EnvDescriptor::new`: a name stays as it is away from Windows. -/
def EnvDescriptor.new (env : String) : EnvDescriptor := ⟨env⟩

def parseEnvList : Option (List String) → Except AnyError (HashSet EnvDescriptor) :=
  parseList fun x =>
    if x = "" then .error (.msg "Empty path is not allowed") else .ok (EnvDescriptor.new x)

def parseSysList : Option (List String) → Except AnyError (HashSet SysDescriptor) :=
  parseList fun x => if x = "" then .error (.msg "empty") else .ok ⟨x⟩

/-- `RunDescriptor::from`: a string with a slash is a path, any other one a name. -/
def RunDescriptor.ofString (host : Host) (s : String) : Except AnyError RunDescriptor :=
  if '/' ∈ s.toList then (unwrap (resolveFromCwd host (Path.ofString s))).map .path
  else .ok (.name s)

def RunDescriptor.aliases : RunDescriptor → List RunDescriptor
  | .name n =>
    match host.which n with
    | some p => [.path p]
    | none => []
  | .path _ => []

/-- The loop of `parse_run_list`: every descriptor goes in together with its aliases. -/
def parseRunLoop (host : Host) (result : HashSet RunDescriptor) :
    List String → Except AnyError (HashSet RunDescriptor)
  | [] => .ok result
  | s :: v =>
    if s = "" then .error (.msg "Empty path is not allowed")
    else
      match RunDescriptor.ofString host s with
      | .error e => .error e
      | .ok desc => parseRunLoop host ((result.insert desc).extend (desc.aliases host)) v

def parseRunList : Option (List String) → Except AnyError (HashSet RunDescriptor)
  | none => .ok .empty
  | some v => parseRunLoop host .empty v

/-! ### The seven interfaces -/

/-- The interface of a descriptor that is a path: stronger means containing. -/
def pathDescriptor {T : Type} [DecidableEq T] (host : Host) (flagName : String) (wrap : Path → T)
    (path : T → Path) : Descriptor T where
  Arg := Path
  argOfString := Path.ofString
  parse := parsePathList host wrap
  assertNonPartial := true
  flagName := flagName
  name d := (path d).display
  strongerThan self other := (path other).startsWith (path self)
  aliases _ := []

def ReadDescriptor.descriptor : Descriptor ReadDescriptor :=
  pathDescriptor host "read" ReadDescriptor.mk ReadDescriptor.path

def WriteDescriptor.descriptor : Descriptor WriteDescriptor :=
  pathDescriptor host "write" WriteDescriptor.mk WriteDescriptor.path

def FfiDescriptor.descriptor : Descriptor FfiDescriptor :=
  pathDescriptor host "ffi" FfiDescriptor.mk FfiDescriptor.path

def NetDescriptor.strongerThan (self other : NetDescriptor) : Bool :=
  self.host = other.host ∧ (self.port = none ∨ self.port = other.port)

def NetDescriptor.toText (self : NetDescriptor) : String :=
  match self.port with
  | none => self.host.canonical
  | some port => self.host.canonical ++ ":" ++ toString port.toNat

def NetDescriptor.descriptor (host : Host) : Descriptor NetDescriptor where
  Arg := String
  argOfString := id
  parse := parseNetList host
  assertNonPartial := false
  flagName := "net"
  name := NetDescriptor.toText
  strongerThan := NetDescriptor.strongerThan
  aliases _ := []

def EnvDescriptor.descriptor : Descriptor EnvDescriptor where
  Arg := String
  argOfString := id
  parse := parseEnvList
  assertNonPartial := false
  flagName := "env"
  name d := d.inner
  strongerThan self other := self = other
  aliases _ := []

def RunDescriptor.toText : RunDescriptor → String
  | .name s => s
  | .path p => p.display

def RunDescriptor.descriptor (host : Host) : Descriptor RunDescriptor where
  Arg := String
  argOfString := id
  parse := parseRunList host
  assertNonPartial := false
  flagName := "run"
  name := RunDescriptor.toText
  strongerThan self other := self = other
  aliases := RunDescriptor.aliases host

def SysDescriptor.descriptor : Descriptor SysDescriptor where
  Arg := String
  argOfString := id
  parse := parseSysList
  assertNonPartial := false
  flagName := "sys"
  name d := d.kind
  strongerThan self other := self = other
  aliases _ := []

/-! ### All seven at once -/

/-- The permissions that are about descriptors. -/
inductive UnaryName where
  | read
  | write
  | net
  | env
  | sys
  | run
  | ffi
  deriving DecidableEq

def UnaryName.Desc : UnaryName → Type
  | .read => ReadDescriptor
  | .write => WriteDescriptor
  | .net => NetDescriptor
  | .env => EnvDescriptor
  | .sys => SysDescriptor
  | .run => RunDescriptor
  | .ffi => FfiDescriptor

instance (k : UnaryName) : DecidableEq k.Desc :=
  match k with
  | .read => inferInstanceAs (DecidableEq ReadDescriptor)
  | .write => inferInstanceAs (DecidableEq WriteDescriptor)
  | .net => inferInstanceAs (DecidableEq NetDescriptor)
  | .env => inferInstanceAs (DecidableEq EnvDescriptor)
  | .sys => inferInstanceAs (DecidableEq SysDescriptor)
  | .run => inferInstanceAs (DecidableEq RunDescriptor)
  | .ffi => inferInstanceAs (DecidableEq FfiDescriptor)

def UnaryName.descriptor (host : Host) : (k : UnaryName) → Descriptor k.Desc
  | .read => ReadDescriptor.descriptor host
  | .write => WriteDescriptor.descriptor host
  | .net => NetDescriptor.descriptor host
  | .env => EnvDescriptor.descriptor
  | .sys => SysDescriptor.descriptor
  | .run => RunDescriptor.descriptor host
  | .ffi => FfiDescriptor.descriptor host

/-! ### What the seven interfaces have in common -/

/-- The laws the descriptor types obey: `strongerThan` is a preorder, it is equality as soon as
some descriptor has an alias, a descriptor has at most one alias, and an alias has none. -/
structure Descriptor.Lawful {T : Type} (D : Descriptor T) : Prop where
  refl : ∀ d, D.strongerThan d d = true
  trans : ∀ {d e f}, D.strongerThan d e = true → D.strongerThan e f = true →
    D.strongerThan d f = true
  eq_of_alias : ∀ {d a}, a ∈ D.aliases d → ∀ {x y}, D.strongerThan x y = true → x = y
  aliases_alias : ∀ {d a}, a ∈ D.aliases d → D.aliases a = []
  aliases_cases : ∀ d, D.aliases d = [] ∨ ∃ a, D.aliases d = [a]

/-- A type without aliases only has to supply a preorder. -/
lemma Descriptor.Lawful.of_no_aliases {T : Type} {D : Descriptor T}
    (refl : ∀ d, D.strongerThan d d = true)
    (trans : ∀ {d e f}, D.strongerThan d e = true → D.strongerThan e f = true →
      D.strongerThan d f = true)
    (hal : ∀ d, D.aliases d = []) : D.Lawful where
  refl := refl
  trans := trans
  eq_of_alias := by
    intro d a ha
    rw [hal d] at ha
    cases ha
  aliases_alias := fun {_ a} _ => hal a
  aliases_cases d := Or.inl (hal d)

lemma pathDescriptor_lawful {T : Type} [DecidableEq T] (host : Host) (flagName : String)
    (wrap : Path → T) (path : T → Path) : (pathDescriptor host flagName wrap path).Lawful := by
  refine .of_no_aliases (fun d => Path.startsWith_iff.mpr List.prefix_rfl) ?_ (fun _ => rfl)
  intro d e f hde hef
  exact Path.startsWith_iff.mpr ((Path.startsWith_iff.mp hde).trans (Path.startsWith_iff.mp hef))

lemma NetDescriptor.strongerThan_iff {d e : NetDescriptor} :
    d.strongerThan e = true ↔ d.host = e.host ∧ (d.port = none ∨ d.port = e.port) := by
  simp [NetDescriptor.strongerThan]

lemma NetDescriptor.descriptor_lawful (host : Host) : (NetDescriptor.descriptor host).Lawful := by
  refine .of_no_aliases (fun d => NetDescriptor.strongerThan_iff.mpr ⟨rfl, Or.inr rfl⟩) ?_
    (fun _ => rfl)
  intro d e f hde hef
  obtain ⟨hh, hp⟩ := NetDescriptor.strongerThan_iff.mp hde
  obtain ⟨hh', hp'⟩ := NetDescriptor.strongerThan_iff.mp hef
  refine NetDescriptor.strongerThan_iff.mpr ⟨hh.trans hh', ?_⟩
  rcases hp with hp | hp
  · exact Or.inl hp
  · rw [hp]
    exact hp'

lemma EnvDescriptor.descriptor_lawful : EnvDescriptor.descriptor.Lawful := by
  refine .of_no_aliases ?_ ?_ (fun _ => rfl) <;> simp +contextual [EnvDescriptor.descriptor]

lemma SysDescriptor.descriptor_lawful : SysDescriptor.descriptor.Lawful := by
  refine .of_no_aliases ?_ ?_ (fun _ => rfl) <;> simp +contextual [SysDescriptor.descriptor]

/-- Only a name has an alias, and it is the path the name resolves to. -/
lemma RunDescriptor.mem_aliases {host : Host} {d a : RunDescriptor} :
    a ∈ d.aliases host ↔ ∃ n p, d = .name n ∧ host.which n = some p ∧ a = .path p := by
  cases d with
  | name n => cases hw : host.which n <;> simp [RunDescriptor.aliases, hw]
  | path p => simp [RunDescriptor.aliases]

lemma RunDescriptor.descriptor_lawful (host : Host) : (RunDescriptor.descriptor host).Lawful where
  refl := by simp [RunDescriptor.descriptor]
  trans := by simp +contextual [RunDescriptor.descriptor]
  eq_of_alias := by simp [RunDescriptor.descriptor]
  aliases_alias := by
    intro d a ha
    obtain ⟨n, p, _, _, rfl⟩ := RunDescriptor.mem_aliases.mp ha
    rfl
  aliases_cases := by
    intro d
    cases d with
    | name n =>
      cases hw : host.which n <;> simp [RunDescriptor.descriptor, RunDescriptor.aliases, hw]
    | path p => exact Or.inl rfl

theorem UnaryName.descriptor_lawful (host : Host) (k : UnaryName) : (k.descriptor host).Lawful := by
  cases k with
  | read | write | ffi => exact pathDescriptor_lawful host _ _ _
  | net => exact NetDescriptor.descriptor_lawful host
  | env => exact EnvDescriptor.descriptor_lawful
  | sys => exact SysDescriptor.descriptor_lawful
  | run => exact RunDescriptor.descriptor_lawful host

end Deno
