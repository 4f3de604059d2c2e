import Deno.Permissions.Unary.Properties

/-!
# The entry points of the permission checks

The functions that turn an argument of the program into a descriptor and hand it to the checks of
`UnaryPermission`. Those of the three path permissions are one family.
-/

namespace Deno

open Core RunDescriptor

variable {T : Type} [DecidableEq T] (host : Host)

/-- `check` of a permission about paths: a partially denied path is rejected. -/
def checkPath (D : Descriptor T) (wrap : Path → T) (self : UnaryPermission T)
    (path : Path) (apiName : Option String) (pr : Prompter) :
    Outcome (UnaryPermission T) (Except AnyError Unit) :=
  if self.isAllowAll then ⟨.ok (), self, pr⟩
  else
    match resolveFromCwd host path with
    | .error e => ⟨.error e, self, pr⟩
    | .ok p =>
      self.checkDesc D (some (wrap p)) true apiName (some ("\"" ++ path.display ++ "\"")) pr

/-- `UnaryPermission<ReadDescriptor>::check`. -/
def ReadDescriptor.check (self : UnaryPermission ReadDescriptor) (path : Path)
    (apiName : Option String) (pr : Prompter) :
    Outcome (UnaryPermission ReadDescriptor) (Except AnyError Unit) :=
  checkPath host (ReadDescriptor.descriptor host) ReadDescriptor.mk self path apiName pr

/-- `UnaryPermission<WriteDescriptor>::check`. -/
def WriteDescriptor.check (self : UnaryPermission WriteDescriptor) (path : Path)
    (apiName : Option String) (pr : Prompter) :
    Outcome (UnaryPermission WriteDescriptor) (Except AnyError Unit) :=
  checkPath host (WriteDescriptor.descriptor host) WriteDescriptor.mk self path apiName pr

/-- `UnaryPermission<FfiDescriptor>::check`. -/
def FfiDescriptor.check (self : UnaryPermission FfiDescriptor) (path : Path)
    (apiName : Option String) (pr : Prompter) :
    Outcome (UnaryPermission FfiDescriptor) (Except AnyError Unit) :=
  checkPath host (FfiDescriptor.descriptor host) FfiDescriptor.mk self path apiName pr

namespace RunDescriptor

/-- `UnaryPermission<RunDescriptor>::query`. -/
def query (host : Host) (self : UnaryPermission RunDescriptor) (cmd : String) :
    Except AnyError PermissionState :=
  (ofString host cmd).map fun d =>
    self.queryDesc (descriptor host) (some d) .treatAsPartialGranted

/-- `UnaryPermission<RunDescriptor>::request`. -/
def request (host : Host) (self : UnaryPermission RunDescriptor) (cmd : String) (pr : Prompter) :
    Outcome (UnaryPermission RunDescriptor) (Except AnyError PermissionState) :=
  match ofString host cmd with
  | .error e => ⟨.error e, self, pr⟩
  | .ok d =>
    let o := self.requestDesc (descriptor host) (some d) (some cmd) pr
    ⟨.ok o.result, o.perm, o.prompter⟩

/-- `UnaryPermission<RunDescriptor>::check`. -/
def check (host : Host) (self : UnaryPermission RunDescriptor) (cmd : String)
    (apiName : Option String) (pr : Prompter) :
    Outcome (UnaryPermission RunDescriptor) (Except AnyError Unit) :=
  if self.isAllowAll then ⟨.ok (), self, pr⟩
  else
    match ofString host cmd with
    | .error e => ⟨.error e, self, pr⟩
    | .ok d =>
      self.checkDesc (descriptor host) (some d) false apiName (some ("\"" ++ cmd ++ "\"")) pr

end RunDescriptor

end Deno
