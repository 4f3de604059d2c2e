import Deno.Permissions.Descriptor

/-!
# Unary permissions

A unary permission is granted or denied as a whole or descriptor by descriptor. Denials come from
two sources, the command line and answered prompts, and are kept apart.
-/

namespace Deno

open Core

structure UnaryPermission (T : Type) where
  grantedGlobal : Bool
  grantedList : HashSet T
  flagDeniedGlobal : Bool
  flagDeniedList : HashSet T
  promptDeniedGlobal : Bool
  promptDeniedList : HashSet T
  prompt : Bool
  deriving DecidableEq

inductive ChildUnaryPermissionArg where
  | inherit
  | granted
  | notGranted
  | grantedList (granted : List String)
  deriving DecidableEq

variable {T : Type}

def UnaryPermission.default : UnaryPermission T where
  grantedGlobal := false
  grantedList := .empty
  flagDeniedGlobal := false
  flagDeniedList := .empty
  promptDeniedGlobal := false
  promptDeniedList := .empty
  prompt := false

namespace UnaryPermission

def allowAll : UnaryPermission T := { UnaryPermission.default with grantedGlobal := true }

def isAllowAll (self : UnaryPermission T) : Bool :=
  self.grantedGlobal && self.flagDeniedList.isEmpty && self.promptDeniedList.isEmpty

variable (D : Descriptor T)

def listContains (desc : Option T) (listGlobal : Bool) (list : HashSet T) : Bool :=
  match desc with
  | some desc => listGlobal || list.any fun v => D.strongerThan v desc
  | none => listGlobal

section

variable (self : UnaryPermission T) (desc : Option T)

def isGranted : Bool :=
  listContains D desc self.grantedGlobal self.grantedList

def isFlagDenied : Bool :=
  listContains D desc self.flagDeniedGlobal self.flagDeniedList

def isPromptDenied : Bool :=
  match desc with
  | some desc => self.promptDeniedList.any fun v => D.strongerThan desc v
  | none => self.promptDeniedGlobal || !self.promptDeniedList.isEmpty

def isPartialFlagDenied : Bool :=
  match desc with
  | none => !self.flagDeniedList.isEmpty
  | some desc => self.flagDeniedList.any fun v => D.strongerThan desc v

/-! ### Queries -/

/-- The state of one descriptor, its aliases aside: the body of the loop of `query_desc`. -/
def stateOf (allowPartial : AllowPartial) : PermissionState :=
  if self.isFlagDenied D desc || self.isPromptDenied D desc then .denied
  else if self.isGranted D desc then
    match allowPartial with
    | .treatAsGranted => .granted
    | .treatAsDenied =>
      if self.isPartialFlagDenied D desc then .denied else .granted
    | .treatAsPartialGranted =>
      if self.isPartialFlagDenied D desc then .grantedPartial else .granted
  else if allowPartial = .treatAsDenied ∧ self.isPartialFlagDenied D desc then .denied
  else .prompt

/-- The loop of `query_desc`: the first state that is not undecided. -/
def firstDecided (self : UnaryPermission T) (allowPartial : AllowPartial) :
    List (Option T) → PermissionState
  | [] => .prompt
  | desc :: descs =>
    let state := self.stateOf D desc allowPartial
    if state ≠ .prompt then state else firstDecided self allowPartial descs

def queryDesc (desc : Option T) (allowPartial : AllowPartial) : PermissionState :=
  let aliases := desc.elim [] D.aliases
  self.firstDecided D allowPartial (desc :: aliases.map some)

end

/-! ### Changes -/

variable [DecidableEq T]

/-- `list_insert`: a descriptor goes in with its aliases, everything sets the global flag. -/
def listInsert (desc : Option T) (listGlobal : Bool) (list : HashSet T) : Bool × HashSet T :=
  match desc with
  | some desc => (listGlobal, (list.insert desc).extend (D.aliases desc))
  | none => (true, list)

variable (self : UnaryPermission T)

section

variable (desc : Option T)

def insertGranted : UnaryPermission T :=
  let (grantedGlobal, grantedList) := listInsert D desc self.grantedGlobal self.grantedList
  { self with grantedGlobal := grantedGlobal, grantedList := grantedList }

def insertPromptDenied : UnaryPermission T :=
  let (deniedGlobal, deniedList) :=
    listInsert D desc self.promptDeniedGlobal self.promptDeniedList
  { self with promptDeniedGlobal := deniedGlobal, promptDeniedList := deniedList }

def checkDesc (assertNonPartial : Bool)
    (apiName : Option String) (displayName : Option String) (pr : Prompter) :
    Outcome (UnaryPermission T) (Except AnyError Unit) :=
  if self.isAllowAll then ⟨.ok (), self, pr⟩
  else
    let info := displayName <|> desc.map fun d => "\"" ++ D.name d ++ "\""
    let c := (self.queryDesc D desc (.ofBool !assertNonPartial)).check2 D.flagName apiName info
      self.prompt pr
    let perm :=
      if c.prompted then
        if c.result.isOk then
          if c.isAllowAll then self.insertGranted D none else self.insertGranted D desc
        else self.insertPromptDenied D desc
      else self
    ⟨c.result, perm, c.prompter⟩

def checkAllApi (apiName : Option String) (pr : Prompter) :
    Outcome (UnaryPermission T) (Except AnyError Unit) :=
  if self.isAllowAll then ⟨.ok (), self, pr⟩
  else self.checkDesc D none false apiName none pr

/-- `check_in_permission`, which the descriptor types write out each for themselves. -/
def checkInPermission (desc : T) (perm : UnaryPermission T) (apiName : Option String)
    (pr : Prompter) : Outcome (UnaryPermission T) (Except AnyError Unit) :=
  if perm.isAllowAll then ⟨.ok (), perm, pr⟩
  else perm.checkDesc D (some desc) D.assertNonPartial apiName none pr

variable (displayName : Option String)

def requestMessage : String :=
  D.flagName ++ " access" ++
    match displayName, desc with
    | some displayName, _ => " to \"" ++ displayName ++ "\""
    | none, some desc => " to \"" ++ D.name desc ++ "\""
    | none, none => ""

def requestDesc (pr : Prompter) : Outcome (UnaryPermission T) PermissionState :=
  let state := self.queryDesc D desc .treatAsPartialGranted
  if state = .granted then ⟨state, self.insertGranted D desc, pr⟩
  else if state ≠ .prompt then ⟨state, self, pr⟩
  else
    let (response, pr') := permissionPrompt pr
      ⟨requestMessage D desc displayName, D.flagName, some "Deno.permissions.request()", true⟩
    match response with
    | .allow => ⟨.granted, self.insertGranted D desc, pr'⟩
    | .deny => ⟨.denied, self.insertPromptDenied D desc, pr'⟩
    | .allowAll => ⟨.granted, self.insertGranted D none, pr'⟩

end

/-- Drop the grants that are stronger than one of the descriptors. -/
def retainNotStronger (list : HashSet T) (descs : List T) : HashSet T :=
  descs.foldl (fun list desc => list.retain fun v => !D.strongerThan v desc) list

def revokeDesc (desc : Option T) : PermissionState × UnaryPermission T :=
  let self :=
    match desc with
    | some desc =>
      { self with grantedList := retainNotStronger D self.grantedList (desc :: D.aliases desc) }
    -- revoking everything also clears the list, unlike revoking a descriptor
    | none => { self with grantedGlobal := false, grantedList := .empty }
  (self.queryDesc D desc .treatAsPartialGranted, self)

/-! ### Child permissions -/

/-- Check the descriptors one after the other until one is rejected; each check may prompt and
thereby change the permission. -/
def checkEach (self : UnaryPermission T) (pr : Prompter) : List T → Outcome (UnaryPermission T) Bool
  | [] => ⟨true, self, pr⟩
  | desc :: descs =>
    let c := checkInPermission D desc self none pr
    if c.result.isOk then checkEach c.perm c.prompter descs else ⟨false, c.perm, c.prompter⟩

/-- The end of `create_child_permissions`: the child takes over every denial of its parent. -/
def inheritDenials (perms self : UnaryPermission T) : UnaryPermission T :=
  { perms with
    flagDeniedGlobal := self.flagDeniedGlobal
    flagDeniedList := self.flagDeniedList
    promptDeniedGlobal := self.promptDeniedGlobal
    promptDeniedList := self.promptDeniedList
    prompt := self.prompt }

/-- Create the permissions of a child. The outcome holds the child, and the parent as the checks
left it; `ord` is the order in which the granted set is iterated. -/
def createChildPermissions (flag : ChildUnaryPermissionArg) (ord : IterOrder T) (pr : Prompter) :
    Outcome (UnaryPermission T) (Except AnyError (UnaryPermission T)) :=
  let perms : UnaryPermission T := UnaryPermission.default
  match flag with
  | .inherit => ⟨.ok (inheritDenials self self), self, pr⟩
  | .granted =>
    let c := self.checkAllApi D none pr
    if c.result.isOk then
      ⟨.ok (inheritDenials { perms with grantedGlobal := true } c.perm), c.perm, c.prompter⟩
    else ⟨.error escalationError, c.perm, c.prompter⟩
  | .notGranted => ⟨.ok (inheritDenials perms self), self, pr⟩
  | .grantedList grantedList =>
    match D.parse (some (grantedList.map D.argOfString)) with
    | .error e => ⟨.error e, self, pr⟩
    | .ok granted =>
      let c := self.checkEach D pr (granted.iter ord)
      if c.result then
        ⟨.ok (inheritDenials { perms with grantedList := granted } c.perm), c.perm, c.prompter⟩
      else ⟨.error escalationError, c.perm, c.prompter⟩

end UnaryPermission

/-- `global_from_option`: a flag without values stands for everything. -/
def globalFromOption {A : Type} : Option (List A) → Bool
  | some v => v.isEmpty
  | none => false

def newUnary (D : Descriptor T) (allowList denyList : Option (List D.Arg)) (prompt : Bool) :
    Except AnyError (UnaryPermission T) := do
  let grantedList ← D.parse allowList
  let flagDeniedList ← D.parse denyList
  return { UnaryPermission.default with
    grantedGlobal := globalFromOption allowList
    grantedList := grantedList
    flagDeniedGlobal := globalFromOption denyList
    flagDeniedList := flagDeniedList
    prompt := prompt }

end Deno
