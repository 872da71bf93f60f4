import Superseedr.Model.DhtNode

/-! # The network guard of feed items

A link of a feed is fetched only if its host is, or resolves to, addresses that are safe. The HTTP client then resolves
the host anew and follows redirects. Parsed URLs, the answers of the resolver and the requests of the client are given.
-/

namespace Superseedr

inductive UrlHost where
  | domain (name : String)
  | ip (addr : IpAddr)

/-- What the guard and the client read of a URL with a known port. -/
structure Url where
  scheme : String
  username : String
  password : Option String
  host : Option UrlHost
  port : ℕ

/-- The answers of the resolver to the lookups that are made, one after the other. -/
abbrev Resolver := ℕ → String → ℕ → Option (List IpAddr)

def ipIsSafe : IpAddr → Bool
  | .v4 ip => !(ipv4IsExempt ip || leading4 4 ip = 0xE)
  | .v6 ip => !(ipv6IsLocal ip || leading6 8 ip = 0xFF)

def addressesOf (resolver : Resolver) (lookup : ℕ) (url : Url) : List IpAddr :=
  match url.host with
  | none => []
  | some (.ip addr) => [addr]
  | some (.domain name) => (resolver lookup name url.port).getD []

def isSafeRssItemUrl (resolver : Resolver) : Option Url → Bool
  | none => false
  | some url =>
    (url.scheme = "http" || url.scheme = "https") && url.username = "" && url.password.isNone &&
      (match url.host with
        | some (.domain name) => name.toLower ≠ "localhost"
        | _ => true) &&
      !(addressesOf resolver 0 url).isEmpty && (addressesOf resolver 0 url).all ipIsSafe

/-- The requests of the client for a URL, the first one and those it is redirected to, each with the number of the
lookup it makes. -/
abbrev HttpClient := Url → List (ℕ × Url)

/-- The addresses the client may connect to for the torrent of an item; none if the guard rejects the link. -/
def fetchTorrentBytes (resolver : Resolver) (client : HttpClient) (url : Option Url) : List IpAddr :=
  match url, isSafeRssItemUrl resolver url with
  | some url, true => (client url).flatMap fun (lookup, url) => addressesOf resolver lookup url
  | _, _ => []

end Superseedr
