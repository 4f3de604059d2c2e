import Deno.Permissions.Unary.Basic

/-!
# All permissions of a program

The seven unary permissions and the two unit permissions, and the creation of the permissions of
a worker. The fields are created one after the other; the first one that fails ends the creation,
with the parent left as the checks up to there changed it.
-/

namespace Deno

open Core

structure Permissions where
  read : UnaryPermission ReadDescriptor
  write : UnaryPermission WriteDescriptor
  net : UnaryPermission NetDescriptor
  env : UnaryPermission EnvDescriptor
  sys : UnaryPermission SysDescriptor
  run : UnaryPermission RunDescriptor
  ffi : UnaryPermission FfiDescriptor
  all : UnitPermission
  hrtime : UnitPermission

structure ChildPermissionsArg where
  env : ChildUnaryPermissionArg
  hrtime : ChildUnitPermissionArg
  net : ChildUnaryPermissionArg
  ffi : ChildUnaryPermissionArg
  read : ChildUnaryPermissionArg
  run : ChildUnaryPermissionArg
  sys : ChildUnaryPermissionArg
  write : ChildUnaryPermissionArg

def Permissions.unary (perms : Permissions) : (k : UnaryName) → UnaryPermission k.Desc
  | .read => perms.read
  | .write => perms.write
  | .net => perms.net
  | .env => perms.env
  | .sys => perms.sys
  | .run => perms.run
  | .ffi => perms.ffi

/-- Computations over the permissions of the parent and the prompter that may fail. -/
abbrev PermissionsM := ExceptT AnyError (StateM (Permissions × Prompter))

variable {T : Type} [DecidableEq T]

/-- Create a child of one unary permission, updating that permission in the parent. -/
def childUnary (D : Descriptor T) (get : Permissions → UnaryPermission T)
    (set : Permissions → UnaryPermission T → Permissions) (flag : ChildUnaryPermissionArg)
    (ord : IterOrder T) : PermissionsM (UnaryPermission T) := fun c =>
  let o := (get c.1).createChildPermissions D flag ord c.2
  (o.result, (set c.1 o.perm, o.prompter))

def childUnit (get : Permissions → UnitPermission)
    (set : Permissions → UnitPermission → Permissions) (flag : ChildUnitPermissionArg) :
    PermissionsM UnitPermission := fun c =>
  let o := (get c.1).createChildPermissions flag c.2
  (o.result, (set c.1 o.perm, o.prompter))

/-- `create_child_permissions`: every field of the worker's permissions is created from the one
of the parent; `all` is always inherited. -/
def Permissions.createChildPermissions (host : Host) (arg : ChildPermissionsArg)
    (ord : (k : UnaryName) → IterOrder k.Desc) : PermissionsM Permissions := do
  let read ← childUnary (ReadDescriptor.descriptor host) Permissions.read
    (fun p x => { p with read := x }) arg.read (ord .read)
  let write ← childUnary (WriteDescriptor.descriptor host) Permissions.write
    (fun p x => { p with write := x }) arg.write (ord .write)
  let net ← childUnary (NetDescriptor.descriptor host) Permissions.net
    (fun p x => { p with net := x }) arg.net (ord .net)
  let env ← childUnary EnvDescriptor.descriptor Permissions.env
    (fun p x => { p with env := x }) arg.env (ord .env)
  let sys ← childUnary SysDescriptor.descriptor Permissions.sys
    (fun p x => { p with sys := x }) arg.sys (ord .sys)
  let run ← childUnary (RunDescriptor.descriptor host) Permissions.run
    (fun p x => { p with run := x }) arg.run (ord .run)
  let ffi ← childUnary (FfiDescriptor.descriptor host) Permissions.ffi
    (fun p x => { p with ffi := x }) arg.ffi (ord .ffi)
  let hrtime ← childUnit Permissions.hrtime (fun p x => { p with hrtime := x }) arg.hrtime
  let all ← childUnit Permissions.all (fun p x => { p with all := x }) .inherit
  return ⟨read, write, net, env, sys, run, ffi, all, hrtime⟩

lemma PermissionsM.bind_eq_ok {α β : Type} {x : PermissionsM α} {f : α → PermissionsM β}
    {c c'' : Permissions × Prompter} {b : β} (h : (x >>= f) c = (.ok b, c'')) :
    ∃ a c', x c = (.ok a, c') ∧ f a c' = (.ok b, c'') := by
  simp only [ExceptT.bind, ExceptT.mk, bind, StateT.bind] at h
  rcases hx : x c with ⟨r, c'⟩
  rw [hx] at h
  cases r with
  | error e => cases h
  | ok a => exact ⟨a, c', rfl, h⟩

end Deno
