import Deno.Core.Split
import Deno.Error
import Mathlib.Data.List.Nodup

/-!
# The permission flags of the command line

The command line is matched flag by flag, and the matches fill the permission fields of `Flags`. The
shim of an installed script has these fields printed as arguments again.
-/

namespace Deno.Args

open Core

/-! ### The flags -/

inductive ListFlag where
  | allowRead | denyRead
  | allowWrite | denyWrite
  | allowNet | denyNet
  | unsafelyIgnoreCertificateErrors
  | allowEnv | denyEnv
  | allowRun | denyRun
  | allowSys | denySys
  | allowFfi | denyFfi
  deriving DecidableEq

inductive Switch where
  | allowHrtime | denyHrtime
  | allowAll
  | noPrompt
  deriving DecidableEq

def ListFlag.long : ListFlag → String
  | allowRead => "allow-read"
  | denyRead => "deny-read"
  | allowWrite => "allow-write"
  | denyWrite => "deny-write"
  | allowNet => "allow-net"
  | denyNet => "deny-net"
  | unsafelyIgnoreCertificateErrors => "unsafely-ignore-certificate-errors"
  | allowEnv => "allow-env"
  | denyEnv => "deny-env"
  | allowRun => "allow-run"
  | denyRun => "deny-run"
  | allowSys => "allow-sys"
  | denySys => "deny-sys"
  | allowFfi => "allow-ffi"
  | denyFfi => "deny-ffi"

def Switch.long : Switch → String
  | allowHrtime => "allow-hrtime"
  | denyHrtime => "deny-hrtime"
  | allowAll => "allow-all"
  | noPrompt => "no-prompt"

/-- The flags in the order in which `to_permission_args` prints them. -/
def ListFlag.printed : List ListFlag :=
  [allowRead, denyRead, allowWrite, denyWrite, allowNet, denyNet, unsafelyIgnoreCertificateErrors,
    allowEnv, denyEnv, allowRun, denyRun, allowSys, denySys, allowFfi, denyFfi]

/-- The flags in the order in which `permission_args_parse` reads them. -/
def ListFlag.parsed : List ListFlag :=
  [unsafelyIgnoreCertificateErrors, allowRead, denyRead, allowWrite, denyWrite, allowNet, denyNet,
    allowEnv, denyEnv, allowRun, denyRun, allowSys, denySys, allowFfi, denyFfi]

def Switch.all : List Switch := [allowHrtime, denyHrtime, allowAll, noPrompt]

/-- The flags that `--allow-all` stands for. -/
def ListFlag.isAllow : ListFlag → Bool
  | allowRead | allowWrite | allowNet | allowEnv | allowRun | allowSys | allowFfi => true
  | _ => false

def ListFlag.isDeny : ListFlag → Bool
  | denyRead | denyWrite | denyNet | denyEnv | denyRun | denySys | denyFfi => true
  | _ => false

/-- The permission fields of `Flags`, with the two others that are read or printed with them. -/
structure Flags where
  allowAll : Bool
  allowHrtime : Bool
  denyHrtime : Bool
  noPrompt : Bool
  lists : ListFlag → Option (List (List Char))

def Flags.default : Flags where
  allowAll := false
  allowHrtime := false
  denyHrtime := false
  noPrompt := false
  lists _ := none

variable (flags : Flags)

/-- `Flags::allow_all`. -/
def Flags.setAllowAll : Flags where
  allowAll := true
  allowHrtime := true
  denyHrtime := flags.denyHrtime
  noPrompt := flags.noPrompt
  lists flag := if flag.isAllow then some [] else flags.lists flag

def Flags.setList (flag : ListFlag) (values : List (List Char)) : Flags where
  allowAll := flags.allowAll
  allowHrtime := flags.allowHrtime
  denyHrtime := flags.denyHrtime
  noPrompt := flags.noPrompt
  lists other := if other = flag then some values else flags.lists other

/-! ### Printing -/

def dashed (name : String) : List Char := '-' :: '-' :: name.toList

def printList (flag : ListFlag) : Option (List (List Char)) → List (List Char)
  | none => []
  | some [] => [dashed flag.long]
  | some (value :: vs) => [dashed flag.long ++ '=' :: [','].intercalate (value :: vs)]

def printSwitch (switch : Switch) (given : Bool) : List (List Char) :=
  if given then [dashed switch.long] else []

def Flags.toPermissionArgs : List (List Char) :=
  if flags.allowAll then [dashed Switch.allowAll.long]
  else
    (ListFlag.printed.flatMap fun flag => printList flag (flags.lists flag)) ++
      printSwitch .allowHrtime flags.allowHrtime ++ printSwitch .denyHrtime flags.denyHrtime

/-! ### Values -/

inductive ArgError where
  | unexpectedArgument
  | unexpectedValue
  | repeatedArgument
  | invalidValue (message : List Char)
  | panicked
  deriving DecidableEq

/-- The hosts that a bare port stands for. -/
def defaultHosts : List (List Char) :=
  ["0.0.0.0".toList, "127.0.0.1".toList, "localhost".toList]

def withPort (host : List Char) (port : ℕ) : List Char := host ++ ':' :: Nat.toDigits 10 port

/-- What the flags are matched with: whether a text is a URL or an address, and the upper case of a
character where the names of variables are compared without case. A host with a port is a URL; a
character in upper case stays as it is, and neither is nor becomes a comma, an equals sign or a
null by that. -/
structure Platform where
  urlParse : List Char → Bool
  ipAddrParse : List Char → Bool
  windows : Bool
  toUppercase : Char → List Char
  urlParse_withPort : ∀ host ∈ defaultHosts, ∀ port < 65536,
    urlParse ("internal://".toList ++ withPort host port)
  toUppercase_fixed : ∀ c, ∀ d ∈ toUppercase c, toUppercase d = [d]
  toUppercase_ne_nil : ∀ c, toUppercase c ≠ []
  toUppercase_reserved : ∀ c, ∀ d ∈ toUppercase c, d = ',' ∨ d = '=' ∨ d = '\x00' → d = c

/-- `str::parse::<u16>`. -/
def parseU16 (text : List Char) : Option ℕ :=
  let digits := match text with
    | '+' :: digits => digits
    | _ => text
  let value := digits.foldl (fun n c => 10 * n + (c.toNat - '0'.toNat)) 0
  if digits.isEmpty || !digits.all Char.isDigit || 65536 ≤ value then none else some value

def barePort : List Char → Option ℕ
  | ':' :: port => parseU16 port
  | _ => none

variable (platform : Platform) (hostAndPort : List Char)

def isHost : Bool :=
  platform.urlParse ("internal://".toList ++ hostAndPort) || platform.ipAddrParse hostAndPort

def badHost : ArgError :=
  .invalidValue ("Bad host:port pair: ".toList ++ hostAndPort)

/-- `flags_net::validator`. -/
def validator : Except ArgError (List Char) :=
  if isHost platform hostAndPort || (barePort hostAndPort).isSome then .ok hostAndPort
  else .error (badHost hostAndPort)

def expandHost : Except ArgError (List (List Char)) :=
  if isHost platform hostAndPort then .ok [hostAndPort]
  else
    match barePort hostAndPort with
    | some port => .ok (defaultHosts.map (withPort · port))
    | none => .error (badHost hostAndPort)

/-- `flags_net::parse`. -/
def netParse (paths : List (List Char)) : Except ArgError (List (List Char)) :=
  (paths.mapM (expandHost platform)).map List.flatten

def parseEnvKey (key : List Char) : Except ArgError (List Char) :=
  if key.isEmpty || key.contains '=' || key.contains '\x00' then
    .error (.invalidValue ("invalid key \"".toList ++ key ++ ['"']))
  else .ok (if platform.windows then key.flatMap platform.toUppercase else key)

def sysKinds : List (List Char) :=
  ["hostname", "osRelease", "osUptime", "loadavg", "networkInterfaces", "systemMemoryInfo", "uid",
    "gid", "cpus"].map String.toList

def parseSysKind (kind : List Char) : Except ArgError (List Char) :=
  if sysKinds.contains kind then .ok kind
  else .error (.invalidValue ("unknown system info kind \"".toList ++ kind ++ ['"']))

def valueParser : ListFlag → List Char → Except ArgError (List Char)
  | .allowNet | .denyNet | .unsafelyIgnoreCertificateErrors => validator platform
  | .allowEnv | .denyEnv => parseEnvKey platform
  | .allowSys | .denySys => parseSysKind
  | _ => .ok

/-! ### Matching -/

structure ArgMatches where
  values : ListFlag → Option (List (List Char))
  given : Switch → Bool

/-- The arguments for what is matched, the lists before the switches. -/
def ArgMatches.args (found : ArgMatches) : List (List Char) :=
  (ListFlag.printed.flatMap fun flag => printList flag (found.values flag)) ++
    Switch.all.flatMap fun switch => printSwitch switch (found.given switch)

/-- A value that is no list of several, and that its flag's parser keeps. -/
def IsRead (flag : ListFlag) (value : List Char) : Prop :=
  ',' ∉ value ∧ valueParser platform flag value = .ok value

/-- Every value that was matched is read as it is. -/
def AllRead (found : ArgMatches) : Prop :=
  ∀ flag values, found.values flag = some values → ∀ value ∈ values, IsRead platform flag value

/-- How `clap` matches arguments: a list is split at its commas, each part goes through its flag's
parser, and the arguments for values that are read as they are give these values. -/
structure Clap where
  getMatches : List (List Char) → Except ArgError ArgMatches
  parsed : ∀ args found, getMatches args = .ok found → ∀ flag values,
    found.values flag = some values → ∀ value ∈ values, ∃ text, ',' ∉ text ∧
      valueParser platform flag text = .ok value
  printed : ∀ found, AllRead platform found → getMatches found.args = .ok found

/-- What a flag's values are kept as. -/
def collect (flag : ListFlag) (values : List (List Char)) : Except ArgError (List (List Char)) :=
  match flag with
  | .allowNet | .denyNet | .unsafelyIgnoreCertificateErrors =>
    match netParse platform values with
    | .ok values => .ok values
    | .error _ => .error .panicked
  | _ => .ok values

def collectList (found : ArgMatches) (flags : Flags) (flag : ListFlag) : Except ArgError Flags :=
  match found.values flag with
  | none => .ok flags
  | some values => (collect platform flag values).map (flags.setList flag)

def permissionArgsParse (flags : Flags) (found : ArgMatches) : Except ArgError Flags := do
  let flags ← ListFlag.parsed.foldlM (collectList platform found) flags
  let flags := { flags with
    allowHrtime := flags.allowHrtime || found.given .allowHrtime
    denyHrtime := flags.denyHrtime || found.given .denyHrtime }
  let flags := if found.given .allowAll then flags.setAllowAll else flags
  return { flags with noPrompt := flags.noPrompt || found.given .noPrompt }

variable {platform}

/-- The flags of a command line with the given permission arguments. -/
def parseFlags (clap : Clap platform) (args : List (List Char)) : Except ArgError Flags := do
  let found ← clap.getMatches args
  permissionArgsParse platform .default found

end Deno.Args
