import Deno.Core.Path
import Deno.Error

/-!
# Errors of the resolution of packages
-/

namespace Deno

open Core

inductive NodeResolutionMode where
  | execution
  | types
  deriving DecidableEq

def NodeResolutionMode.isTypes (mode : NodeResolutionMode) : Bool := mode = .types

/-- The module that asks, as its URL and as it is shown to the user. -/
structure Referrer where
  url : String
  display : String
  deriving DecidableEq

def packageJsonPath (packageDir : Path) : Path := packageDir.join (.ofString "package.json")

def genericError (message : String) : AnyError := .custom "Error" message

def errInvalidModuleSpecifier (request reason : String) (maybeBase : Option String) : AnyError :=
  let msg := "[ERR_INVALID_MODULE_SPECIFIER] Invalid module \"" ++ request ++ "\" " ++ reason
  typeError (match maybeBase with
    | some base => msg ++ " imported from " ++ base
    | none => msg)

def errInvalidPackageTarget (packageDir : Path) (key target : String) (isImport : Bool)
    (maybeReferrer : Option String) : AnyError :=
  if key = "." ∧ isImport then .panic "assertion failed: !is_import"
  else
    let relError := !isImport && target ≠ "" && !"./".isPrefixOf target
    let where_ := (packageJsonPath packageDir).display
    let msg :=
      if key = "." then
        "[ERR_INVALID_PACKAGE_TARGET] Invalid \"exports\" main target " ++ target ++
          " defined in the package config " ++ where_
      else
        "[ERR_INVALID_PACKAGE_TARGET] Invalid \"" ++ (if isImport then "imports" else "exports") ++
          "\" target " ++ target ++ " defined for '" ++ key ++ "' in the package config " ++ where_
    let msg := match maybeReferrer with
      | some base => msg ++ " imported from " ++ base
      | none => msg
    genericError (if relError then msg ++ "; target must start with \"./\"" else msg)

def errPackagePathNotExported (pkgPath subpath : String) (maybeReferrer : Option String)
    (mode : NodeResolutionMode) : AnyError :=
  let pkgPath := if pkgPath.endsWith "/" then pkgPath else pkgPath ++ "/"
  let typesMsg := match mode with
    | .execution => ""
    | .types => " for types"
  let msg :=
    if subpath = "." then
      "[ERR_PACKAGE_PATH_NOT_EXPORTED] No \"exports\" main defined" ++ typesMsg ++ " in '" ++
        pkgPath ++ "package.json'"
    else
      "[ERR_PACKAGE_PATH_NOT_EXPORTED] Package subpath '" ++ subpath ++ "' is not defined" ++
        typesMsg ++ " by \"exports\" in '" ++ pkgPath ++ "package.json'"
  genericError (match maybeReferrer with
    | some referrer => msg ++ " imported from '" ++ referrer ++ "'"
    | none => msg)

def errPackageImportNotDefined (specifier : String) (packageDir : Option Path) (base : String) :
    AnyError :=
  let msg := "[ERR_PACKAGE_IMPORT_NOT_DEFINED] Package import specifier \"" ++ specifier ++
    "\" is not defined"
  let msg := match packageDir with
    | some dir => msg ++ " in package " ++ (packageJsonPath dir).display
    | none => msg
  typeError (msg ++ " imported from " ++ base)

def throwImportNotDefined (specifier : List Char) (packageDir : Option Path) (base : Referrer) :
    AnyError :=
  errPackageImportNotDefined (String.ofList specifier) packageDir base.display

def throwInvalidPackageTarget (subpath target : List Char) (packageDir : Path) (internal : Bool)
    (referrer : Referrer) : AnyError :=
  errInvalidPackageTarget packageDir (String.ofList subpath) (String.ofList target) internal
    (some referrer.url)

variable (subpath : List Char)

def throwInvalidSubpath (packageDir : Path) (internal : Bool) (referrer : Referrer) : AnyError :=
  errInvalidModuleSpecifier (String.ofList subpath)
    ("request is not a valid subpath for the \"" ++ (if internal then "imports" else "exports") ++
      "\" resolution of " ++ (packageJsonPath packageDir).display) (some referrer.display)

def throwExportsNotFound (packageDir : Path) (referrer : Referrer)
    (mode : NodeResolutionMode) : AnyError :=
  errPackagePathNotExported packageDir.display (String.ofList subpath) (some referrer.display) mode

end Deno
