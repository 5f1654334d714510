import Catalyst.Library.Check
import Catalyst.Library.IpText

/-!
# URLs that may be fetched

A URL is checked, its host resolved, and every address of the host checked,
before a connection is opened. Hosts and addresses are ASCII, so lower case is
the ASCII one.

The URL parser and `isIP` belong to the platform. `isIP` knows every spelling of
an address; on other texts it may say anything.
-/

namespace Catalyst.Web

open Library

abbrev Text := List Char

def Text.toLower (t : Text) : Text := t.map Char.toLower

inductive IpVersion
  | none | v4 | v6
  deriving DecidableEq

/-- The parts of a URL as the platform parses it; `href` is the whole of it. -/
structure Url where
  protocol : String
  username : String
  password : String
  port : String
  hostname : Text
  href : String
  deriving DecidableEq

structure Platform where
  parseUrl : String → Option Url
  /-- A `Location` header against the URL it answers. -/
  resolveUrl : String → Url → Option String
  isIP : Text → IpVersion
  isIP_ipv4 : ∀ a : Ipv4, isIP a.text = .v4
  isIP_ipv6 : Ipv6Spells true t groups → isIP t = .v6

/-- White space and line ends, which `Number.parseInt` skips. -/
def isSpace (c : Char) : Bool :=
  c ∈ ['\t', '\n', '\x0b', '\x0c', '\r', ' ', '\u00a0', '\u1680', '\u2028', '\u2029', '\u202f',
    '\u205f', '\u3000', '\ufeff'] || ('\u2000' ≤ c && c ≤ '\u200a')

/-- `Number.parseInt` of base ten: the digits a text starts with, after its sign. -/
def parseInt (t : Text) : Option Int :=
  let t := t.dropWhile isSpace
  let negative := t.head? = some '-'
  let unsigned := if t.head? = some '-' ∨ t.head? = some '+' then t.tail else t
  let digits := unsigned.takeWhile Char.isDigit
  if digits = [] then none
  else
    let value : Int := Nat.ofDigitChars 10 digits 0
    some (if negative then -value else value)

def parseIpv4Octets (address : Text) : Option (List Nat) := do
  let parts := address.splitOn '.'
  guard (parts.length = 4)
  let octets ← parts.mapM parseInt
  guard (∀ octet ∈ octets, 0 ≤ octet ∧ octet ≤ 255)
  return octets.map Int.toNat

def isBlockedOctets (octets : List Nat) : Bool :=
  let first := octets.getD 0 0
  let second := octets.getD 1 0
  let third := octets.getD 2 0
  let fourth := octets.getD 3 0
  first = 0 || first = 10 || first = 127 ||
  (first = 100 && 64 ≤ second && second ≤ 127) ||
  (first = 169 && second = 254) ||
  (first = 172 && 16 ≤ second && second ≤ 31) ||
  (first = 192 && second = 168) ||
  (first = 192 && second = 0) ||
  (first = 198 && (second = 18 || second = 19)) ||
  (first = 224 || 224 < first) ||
  (first = 100 && second = 100 && third = 100 && fourth = 200) ||
  (first = 192 && second = 0 && third = 2) ||
  (first = 198 && second = 51 && third = 100) ||
  (first = 203 && second = 0 && third = 113)

def isBlockedIpv4Address (address : Text) : Bool := (parseIpv4Octets address).all isBlockedOctets

def expandEmbeddedIpv4 (address : Text) : Text :=
  if '.' ∉ address then address
  else
    match splitLast ':' address with
    | none => address
    | some (before, ipv4) =>
      match parseIpv4Octets ipv4 with
      | none => address
      | some octets =>
        let high := (octets.getD 0 0 <<< 8) ||| octets.getD 1 0
        let low := (octets.getD 2 0 <<< 8) ||| octets.getD 3 0
        before ++ ':' :: (Nat.toDigits 16 high ++ ':' :: Nat.toDigits 16 low)

def parseIpv6Group (group : Text) : Option Nat :=
  if group ≠ [] ∧ group.length ≤ 4 ∧ group.all (· ∈ hexDigits) then hexValue? group else none

def parseIpv6Groups (input : Text) : Option (List Nat) :=
  if input = [] then some [] else (input.splitOn ':').mapM parseIpv6Group

def stripBrackets (t : Text) : Text :=
  let t := if t.head? = some '[' then t.tail else t
  if t.getLast? = some ']' then t.dropLast else t

def parseIpv6Bytes (address : Text) : Option (List Nat) := do
  let parts := splitDouble ':' (expandEmbeddedIpv4 (stripBrackets address.toLower))
  guard (parts.length ≤ 2)
  let left ← parseIpv6Groups (parts.getD 0 [])
  let right ← parseIpv6Groups (parts.getD 1 [])
  let missing : Int := 8 - left.length - right.length
  guard (parts.length = 1 → missing = 0)
  guard (parts.length = 2 → 1 ≤ missing)
  let groups := left ++ List.replicate missing.toNat 0 ++ right
  guard (groups.length = 8)
  return groups.flatMap fun group => [(group >>> 8) &&& 0xff, group &&& 0xff]

def getIpv4MappedAddress (bytes : List Nat) : Option Text :=
  if (bytes.take 10).all (· = 0) ∧ bytes.getD 10 0 = 0xff ∧ bytes.getD 11 0 = 0xff then
    some (joinWith '.' (((bytes.drop 12).take 4).map (Nat.toDigits 10)))
  else none

def isBlockedIpv6Bytes (bytes : List Nat) : Bool :=
  let first := bytes.getD 0 0
  let second := bytes.getD 1 0
  let third := bytes.getD 2 0
  let fourth := bytes.getD 3 0
  (getIpv4MappedAddress bytes).any isBlockedIpv4Address ||
  bytes.all (· = 0) ||
  ((bytes.take 15).all (· = 0) && bytes.getD 15 0 = 1) ||
  (first &&& 0xfe = 0xfc) || first = 0xfe || first = 0xff ||
  (first = 0x20 && second = 0x01 && third = 0x0d && fourth = 0xb8)

def isBlockedIpv6Address (address : Text) : Bool := (parseIpv6Bytes address).all isBlockedIpv6Bytes

structure WebFetchResolvedAddress where
  address : Text
  family : IpVersion
  deriving DecidableEq

structure WebFetchTarget where
  url : Url
  addresses : List WebFetchResolvedAddress
  deriving DecidableEq

/-- A `WebFetchSafetyError`, or what the resolver throws. -/
inductive ValidationError
  | safety (message : String)
  | thrown (message : String)
  deriving DecidableEq

abbrev ResolverAnswer := Except String (List WebFetchResolvedAddress)

def blockedMetadataHostnames : List String :=
  ["metadata", "metadata.google.internal", "instance-data", "instance-data.ec2.internal"]

def normalizeHostname (hostname : Text) : Text :=
  ((stripBrackets hostname.toLower).reverse.dropWhile (· = '.')).reverse

variable (P : Platform)

def isBlockedIpAddress (address : Text) : Bool :=
  match P.isIP address with
  | .v4 => isBlockedIpv4Address address
  | .v6 => isBlockedIpv6Address address
  | .none => true

def parseWebFetchUrl (rawUrl : String) : Except ValidationError Url := do
  let url ← Check.need (P.parseUrl rawUrl) (.safety "URL is invalid")
  Check.require (url.protocol = "http:" ∨ url.protocol = "https:")
    (.safety "Only http and https URLs are allowed")
  Check.require (url.username = "" ∧ url.password = "") (.safety "URL credentials are not allowed")
  Check.require (url.port = "") (.safety "Only default http and https ports are allowed")
  Check.require (url.hostname ≠ []) (.safety "URL host is required")
  return url

def assertAllowedHostname (hostname : Text) : Except ValidationError Unit := do
  let name := String.ofList hostname
  Check.require (name ≠ "localhost" ∧ ¬ ".localhost".toList <:+ hostname)
    (.safety s!"URL host '{name}' is blocked")
  Check.require (name ∉ blockedMetadataHostnames)
    (.safety s!"URL host '{name}' is blocked as a metadata host")

/-- The addresses of a name, if there is one and none is blocked. -/
def checkAddresses (hostname : Text) (addresses : List WebFetchResolvedAddress) :
    Except ValidationError Unit := do
  let name := String.ofList hostname
  Check.require (addresses ≠ []) (.safety s!"URL host '{name}' did not resolve to an IP address")
  match addresses.find? fun a => isBlockedIpAddress P a.address with
  | none => return
  | some blocked =>
    let address := String.ofList blocked.address
    .error (.safety s!"URL host '{name}' resolves to blocked address '{address}'")

def validateWebFetchUrl (resolver : Text → ResolverAnswer) (rawUrl : String) :
    Except ValidationError WebFetchTarget := do
  let url ← parseWebFetchUrl P rawUrl
  let hostname := normalizeHostname url.hostname
  assertAllowedHostname hostname
  if P.isIP hostname ≠ .none then
    let address := String.ofList hostname
    Check.require (isBlockedIpAddress P hostname = false) (.safety s!"URL address '{address}' is blocked")
    return ⟨url, [⟨hostname, P.isIP hostname⟩]⟩
  else
    let addresses ← (resolver hostname).mapError ValidationError.thrown
    checkAddresses P hostname addresses
    return ⟨url, addresses⟩

end Catalyst.Web
