import Deno.Error
import Mathlib.Data.List.Basic
import Mathlib.Order.Basic

/-!
# Permission states and prompts

The four states of a permission, the treatment of partial denials, and the prompt that turns an
undecided state into a decision. The person at the terminal is a list of answers still to be
given, together with a log of the questions asked so far; once the answers run out every further
question is denied, as on a terminal that is not interactive.
-/

namespace Deno

/-- Quadri-state value for storing permission state. -/
inductive PermissionState where
  | granted
  | grantedPartial
  | prompt
  | denied
  deriving DecidableEq

namespace PermissionState

/-- The discriminant, which is also the order of the states. -/
def rank : PermissionState → ℕ
  | .granted => 0
  | .grantedPartial => 1
  | .prompt => 2
  | .denied => 3

instance : LE PermissionState := ⟨fun s t => s.rank ≤ t.rank⟩

instance : DecidableRel (· ≤ · : PermissionState → PermissionState → Prop) :=
  fun s t => inferInstanceAs (Decidable (s.rank ≤ t.rank))

lemma le_refl (s : PermissionState) : s ≤ s := Nat.le_refl _

variable (s : PermissionState)

lemma le_denied : s ≤ .denied := by
  cases s <;> decide

lemma granted_le : .granted ≤ s := Nat.zero_le _

lemma le_prompt {s : PermissionState} (h : s ≠ .denied) : s ≤ .prompt := by
  cases s with
  | denied => exact absurd rfl h
  | granted | grantedPartial | prompt => decide

end PermissionState

/-- How to treat a permission of which a `--deny-*` flag affects a subscope only. -/
inductive AllowPartial where
  | treatAsGranted
  | treatAsDenied
  | treatAsPartialGranted
  deriving DecidableEq

/-- `AllowPartial::from`. -/
def AllowPartial.ofBool (value : Bool) : AllowPartial :=
  if value then .treatAsGranted else .treatAsDenied

/-! ### Prompts -/

inductive PromptResponse where
  | allow
  | deny
  | allowAll
  deriving DecidableEq

structure PromptRequest where
  message : String
  flag : String
  apiName : Option String
  isUnary : Bool
  deriving DecidableEq

/-- The person who answers: the answers to come, and the log of what was asked and answered. -/
structure Prompter where
  answers : List PromptResponse
  log : List (PromptRequest × PromptResponse)
  deriving DecidableEq

def Prompter.fresh (answers : List PromptResponse) : Prompter := ⟨answers, []⟩

variable (pr : Prompter)

def Prompter.next : PromptResponse := pr.answers.head?.getD .deny

def Prompter.asked (request : PromptRequest) : Prompter :=
  ⟨pr.answers.tail, pr.log ++ [(request, pr.next)]⟩

def permissionPrompt (request : PromptRequest) : PromptResponse × Prompter :=
  (pr.next, pr.asked request)

@[simp] lemma Prompter.log_asked (request : PromptRequest) :
    (pr.asked request).log = pr.log ++ [(request, pr.next)] := rfl

/-! ### Checking a state -/

namespace PermissionState

def fmtAccess (name : String) (info : Option String) : String :=
  name ++ " access" ++ (info.map fun info => " to " ++ info).getD ""

def error (name : String) (info : Option String) : AnyError :=
  .custom "PermissionDenied"
    ("Requires " ++ fmtAccess name info ++ ", run again with the --allow-" ++ name ++ " flag")

/-- What `check2` returns: the result, whether a prompt was issued, whether it was answered by
allowing everything, and the prompter afterwards. -/
structure Checked where
  result : Except AnyError Unit
  prompted : Bool
  isAllowAll : Bool
  prompter : Prompter

/-- Check the permission state, asking when it is undecided and `prompt` is set. -/
def check2 (state : PermissionState) (name : String) (apiName : Option String)
    (info : Option String) (prompt : Bool) (pr : Prompter) : Checked :=
  match state with
  | .granted => ⟨.ok (), false, false, pr⟩
  | .prompt =>
    if prompt then
      let (response, pr') := permissionPrompt pr ⟨fmtAccess name info, name, apiName, true⟩
      match response with
      | .allow => ⟨.ok (), true, false, pr'⟩
      | .allowAll => ⟨.ok (), true, true, pr'⟩
      | .deny => ⟨.error (error name info), true, false, pr'⟩
    else ⟨.error (error name info), false, false, pr⟩
  | _ => ⟨.error (error name info), false, false, pr⟩

end PermissionState

/-- A permission without scopes: high precision time, or everything at once. -/
structure UnitPermission where
  name : String
  description : String
  state : PermissionState
  prompt : Bool
  deriving DecidableEq

/-- A result, the permission as it was left, and the prompter afterwards. -/
structure Outcome (π α : Type) where
  result : α
  perm : π
  prompter : Prompter

/-- Escalation of a child's permissions beyond its parent's. -/
def escalationError : AnyError :=
  .custom "PermissionDenied" "Can't escalate parent thread permissions"

inductive ChildUnitPermissionArg where
  | inherit
  | granted
  | notGranted
  deriving DecidableEq

namespace UnitPermission

variable (self : UnitPermission)

def query : PermissionState := self.state

def request (pr : Prompter) : Outcome UnitPermission PermissionState :=
  if self.state = .prompt then
    let (response, pr') := permissionPrompt pr
      ⟨"access to " ++ self.description, self.name, some "Deno.permissions.query()", false⟩
    let state := if response = .allow then PermissionState.granted else .denied
    ⟨state, { self with state := state }, pr'⟩
  else ⟨self.state, self, pr⟩

def revoke : PermissionState × UnitPermission :=
  let self := if self.state = .granted then { self with state := .prompt } else self
  (self.state, self)

def check (pr : Prompter) : Outcome UnitPermission (Except AnyError Unit) :=
  let c := self.state.check2 self.name none none self.prompt pr
  let state :=
    if c.prompted then if c.result.isOk then PermissionState.granted else .denied
    else self.state
  ⟨c.result, { self with state := state }, c.prompter⟩

def createChildPermissions (flag : ChildUnitPermissionArg)
    (pr : Prompter) : Outcome UnitPermission (Except AnyError UnitPermission) :=
  -- a parent that is denied by now denies the child, whatever was asked for
  let finish (child parent : UnitPermission) : UnitPermission :=
    if parent.state = .denied then { child with state := .denied } else child
  match flag with
  | .inherit => ⟨.ok (finish self self), self, pr⟩
  | .granted =>
    let c := self.check pr
    match c.result with
    | .error _ => ⟨.error escalationError, c.perm, c.prompter⟩
    | .ok () => ⟨.ok (finish { self with state := .granted } c.perm), c.perm, c.prompter⟩
  | .notGranted => ⟨.ok (finish { self with state := .prompt } self), self, pr⟩

end UnitPermission

end Deno
