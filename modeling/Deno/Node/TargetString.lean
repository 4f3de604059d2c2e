import Deno.Core.PathText
import Deno.Core.Replace
import Deno.Node.PackageKeys

/-!
# String targets

A string target names a file of the package, with a star for the text that the star of its key
stands for; in `imports` it may also name another package.
-/

namespace Deno

open Core

/-- A module: a file by its path, or anything else by its scheme and what follows. -/
inductive Specifier where
  | file (path : Path)
  | other (scheme text : List Char)
  deriving DecidableEq

/-- A file is named by an absolute path only. -/
def toFileSpecifier (path : Path) : Except AnyError Specifier :=
  if path.isAbsolute then .ok (.file path)
  else .error (.panic ("Invalid path: " ++ path.display))

/-- Whether a text matches `(^|\\|/)(\.\.?|node_modules)(\\|/|$)`: one of the words stands between
two separators. -/
def invalidSegment (text : List Char) : Bool :=
  (text.splitOnP fun c => c = '/' || c = '\\').any fun w =>
    w = ['.'] || w = ['.', '.'] || w = "node_modules".toList

/-- What the resolution needs: `Url::parse`, `package_resolve`, the list of builtin modules, and
`path_clean`, which leaves a path of names as it is, and no `..` in an absolute path. -/
structure PackageResolver where
  parse : List Char → Option Specifier
  packageResolve : List Char → Specifier → Except AnyError (Option Specifier)
  isBuiltinNodeModule : List Char → Bool
  clean : Path → Path
  clean_names (p : Path) (ns : List (List Char)) :
    p.comps = .rootDir :: ns.map Path.named → clean p = p
  clean_absolute (p : Path) : p.isAbsolute = true → .parentDir ∉ (clean p).comps

variable (resolver : PackageResolver)

namespace PackageResolver

def withSubpath (packageDir : Path) (referrer : Referrer) (subpath match_ : List Char)
    (pattern internal : Bool) (resolvedPath : Path) : Except AnyError Specifier :=
  if subpath = [] then toFileSpecifier resolvedPath
  else if invalidSegment subpath then
    let request := if pattern then replaceAll '*' subpath match_ else match_ ++ subpath
    .error (throwInvalidSubpath request packageDir internal referrer)
  else if pattern then
    -- only the first star, and of the whole path
    let replaced := replaceFirst '*' subpath resolvedPath.display.toList
    toFileSpecifier (.ofString (String.ofList replaced))
  else toFileSpecifier (resolver.clean (resolvedPath.join (.ofString (String.ofList subpath))))

def resolveBare (packageDir : Path) (target subpath : List Char) (pattern : Bool) :
    Except AnyError Specifier := do
  let exportTarget := if pattern then replaceFirst '*' subpath target else target ++ subpath
  let packageJsonUrl ← toFileSpecifier (packageJsonPath packageDir)
  let result : Except AnyError Specifier := match resolver.packageResolve exportTarget packageJsonUrl with
    | .ok (some url) => .ok url
    | .ok none => .error (genericError "not found")
    | .error e => .error e
  match result with
  | .ok url => .ok url
  | .error (.panic msg) => .error (.panic msg)
  | .error e =>
    if resolver.isBuiltinNodeModule target then
      unwrapOption (resolver.parse ("node:".toList ++ target))
    else .error e

def resolvePackageTargetString (packageDir : Path) (referrer : Referrer)
    (target subpath match_ : List Char) (pattern internal : Bool) : Except AnyError Specifier :=
  let invalid := throwInvalidPackageTarget match_ target packageDir internal referrer
  if subpath ≠ [] ∧ ¬ pattern ∧ ¬ endsWith target ['/'] then .error invalid
  else if ¬ startsWith target ['.', '/'] then
    if internal ∧ ¬ startsWith target ['.', '.', '/'] ∧ ¬ startsWith target ['/'] then
      match resolver.parse target with
      | some (.other scheme text) =>
        if scheme = "node".toList then .ok (.other scheme text) else .error invalid
      | some (.file _) => .error invalid
      | none => resolver.resolveBare packageDir target subpath pattern
    else .error invalid
  else if invalidSegment (target.drop 2) then .error invalid
  else
    let resolvedPath := resolver.clean (packageDir.join (.ofString (String.ofList target)))
    if ¬ resolvedPath.startsWith packageDir then .error invalid
    else resolver.withSubpath packageDir referrer subpath match_ pattern internal resolvedPath

end PackageResolver

end Deno
