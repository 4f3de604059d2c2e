import Mathlib.Data.List.Basic

/-!
# URLs

The parts of a URL as the `url` crate keeps them, and its text.
-/

namespace Core

inductive Host where
  | domain (name : List Char)
  | ip (address : List Char)
  deriving DecidableEq

def Host.text : Host → List Char
  | domain name => name
  | ip address => address

/-- What stands between `//` and the path. Files have an empty domain. -/
structure Authority where
  username : List Char
  password : Option (List Char)
  host : Host
  port : Option ℕ
  deriving DecidableEq

structure Url where
  scheme : List Char
  authority : Option Authority
  path : List Char
  query : Option (List Char)
  fragment : Option (List Char)
  deriving DecidableEq

variable (authority : Authority)

/-- The name and the password of the user, with the sign behind them. -/
def Authority.userInfo : List Char :=
  match authority.username, authority.password with
  | [], none => []
  | name, none => name ++ ['@']
  | name, some password => name ++ ':' :: password ++ ['@']

def Authority.hostAndPort : List Char :=
  authority.host.text ++ authority.port.elim [] fun port => ':' :: (toString port).toList

namespace Url

variable (url : Url)

def fromHost : List Char :=
  url.authority.elim [] Authority.hostAndPort ++ url.path ++
    url.query.elim [] (fun query => '?' :: query) ++
    url.fragment.elim [] (fun fragment => '#' :: fragment)

def asStr : List Char :=
  url.scheme ++ ':' :: url.authority.elim [] (fun authority => '/' :: '/' :: authority.userInfo) ++
    url.fromHost

def file (path : List Char) : Url :=
  ⟨"file".toList, some ⟨[], none, .domain [], none⟩, path, none, none⟩

end Url

end Core
