import Fion.Http.Headers

/-!
# URLs

The class `URL`, the parser its constructor runs and `toString`.  The four
parsing helpers mutate the object and a working string `url`, so here each one
takes the object and returns the new one with the new working string or
position.

`parseScheme` looks for `"://"` in the whole raw string, before anything else is
cut off.  The fragment is cut off next, then the query, and what is left is
authority and path.
-/

namespace Fion.Http

open Cpp (Bytes Exn ascii chr substr substrFrom sizeSub tolower isdigit stoi printNat)
open Text (find findFrom rfind lines)

/-- The class `URL`; the default values are those of the empty object. -/
structure URL where
  scheme : Bytes := []
  domainName : Bytes := []
  port : UInt16 := 0
  pathToResource : Bytes := ascii "/"
  queryParameters : StringMap := ∅
  anchor : Bytes := []
deriving DecidableEq

namespace URL

/-! ## Static helpers -/

def toLowerCopy (s : Bytes) : Bytes := s.map tolower

def defaultPortForScheme (scheme : Bytes) : UInt16 :=
  if scheme = ascii "http" then 80 else if scheme = ascii "https" then 443 else 0

/-- The port of a URL that names none. -/
def fallbackPort (scheme : Bytes) : UInt16 :=
  let d := defaultPortForScheme scheme
  if d ≠ 0 then d else 80

def parsePortNumber (portStr : Bytes) : Except Exn UInt16 :=
  if portStr = [] then .error (.invalidArgument "Invalid port number")
  else if ¬ portStr.all isdigit then .error (.invalidArgument "Invalid port number")
  else
    match stoi portStr with
    | .error _ => .error (.invalidArgument "Invalid port number")
    | .ok portNum =>
        if portNum < 0 ∨ portNum > 65535 then .error (.invalidArgument "Port number out of range")
        else .ok (UInt16.ofNat portNum.toNat)

/-! ## The parsing steps -/

/-- The scheme, and the position behind it. -/
def parseScheme (u : URL) (raw : Bytes) : URL × Nat :=
  match find (ascii "://") raw with
  | some schemeEnd => ({ u with scheme := toLowerCopy (raw.take schemeEnd) }, schemeEnd + 3)
  | none =>
      if raw.head? = some (chr '/') then ({ u with scheme := [] }, 0)
      else ({ u with scheme := ascii "http" }, 0)

/-- The fragment behind the first `#`; the working string loses it. -/
def parseFragment (u : URL) (url : Bytes) (startPos : Nat) : Except Exn (URL × Bytes) :=
  match findFrom [chr '#'] url startPos with
  | none => .ok (u, url)
  | some anchorPos => do
      let anchor ← substrFrom url (anchorPos + 1)
      let url ← substr url 0 anchorPos
      return ({ u with anchor := anchor }, url)

/-- One piece of the query string. -/
def storeParam (queryParameters : StringMap) (param : Bytes) : StringMap :=
  match find [chr '='] param with
  | some equalPos => queryParameters.insert (param.take equalPos) (param.drop (equalPos + 1))
  | none => if param ≠ [] then queryParameters.insert param [] else queryParameters

/-- The query behind the first `?`; the working string loses it. -/
def parseQuery (u : URL) (url : Bytes) (startPos : Nat) : Except Exn (URL × Bytes) :=
  match findFrom [chr '?'] url startPos with
  | none => .ok (u, url)
  | some queryPos => do
      let queryString ← substrFrom url (queryPos + 1)
      let url ← substr url 0 queryPos
      let params := (lines (chr '&') queryString).foldl storeParam u.queryParameters
      return ({ u with queryParameters := params }, url)

/-- Authority text and path of a working string that has an authority. -/
def splitAuthority (url : Bytes) (pos : Nat) : Except Exn (Bytes × Bytes) :=
  match findFrom [chr '/'] url pos with
  | some pathStart => do
      let hostPort ← substr url pos (sizeSub pathStart pos)
      let path ← substrFrom url pathStart
      return (hostPort, path)
  | none => do
      let hostPort ← substrFrom url pos
      return (hostPort, ascii "/")

/-- Strip `user:pass@`. -/
def stripUserInfo (hostPort : Bytes) : Except Exn Bytes :=
  match find [chr '@'] hostPort with
  | some atPos => substrFrom hostPort (atPos + 1)
  | none => .ok hostPort

/-- Domain name and port of an authority without user info. -/
def parseHostPort (u : URL) (hostPort : Bytes) : Except Exn URL :=
  if hostPort = [] then .ok { u with domainName := [], port := 0 }
  else if hostPort.head? = some (chr '[') then
    match find [chr ']'] hostPort with
    | none => .error (.invalidArgument "Malformed IPv6 address")
    | some ipv6End => do
        let domainName ← substr hostPort 0 (ipv6End + 1)
        if hostPort[ipv6End + 1]? = some (chr ':') then do
          let portStr ← substrFrom hostPort (ipv6End + 2)
          let port ← parsePortNumber portStr
          return { u with domainName := domainName, port := port }
        else return { u with domainName := domainName, port := fallbackPort u.scheme }
  else
    match rfind (chr ':') hostPort with
    | some colonPos => do
        let domainName ← substr hostPort 0 colonPos
        let portStr ← substrFrom hostPort (colonPos + 1)
        let port ← parsePortNumber portStr
        return { u with domainName := domainName, port := port }
    | none => .ok { u with domainName := hostPort, port := fallbackPort u.scheme }

/-- Authority and path, or a path alone when the rest begins with `/`. -/
def parseAuthorityAndPath (u : URL) (url : Bytes) (pos : Nat) : Except Exn URL :=
  if url[pos]? = some (chr '/') then do
    let path ← substrFrom url pos
    return { u with pathToResource := path }
  else do
    let (hostPort, path) ← splitAuthority url pos
    let hostPort ← stripUserInfo hostPort
    parseHostPort { u with pathToResource := path } hostPort

/-- The constructor from a raw string. -/
def parse (rawURL : Bytes) : Except Exn URL :=
  if rawURL = [] then .error (.invalidArgument "URL cannot be empty")
  else do
    let (u, pos) := parseScheme {} rawURL
    let (u, url) ← parseFragment u rawURL pos
    let (u, url) ← parseQuery u url pos
    parseAuthorityAndPath u url pos

/-! ## Printing -/

/-- One parameter of the query; an empty value is printed without its `=`. -/
def printParam (param : Bytes × Bytes) : Bytes :=
  param.1 ++ if param.2 ≠ [] then ascii "=" ++ param.2 else []

/-- The loop over the parameters. -/
def printParams (first : Bool) : List (Bytes × Bytes) → Bytes
  | [] => []
  | param :: rest =>
      (if ¬ first then ascii "&" else []) ++ printParam param ++ printParams false rest

/-- The port behind a domain name. -/
def printPort (u : URL) : Bytes :=
  let isDefaultPort :=
    u.scheme = ascii "http" ∧ u.port = 80 ∨ u.scheme = ascii "https" ∧ u.port = 443
  if u.port ≠ 0 ∧ ¬ isDefaultPort then ascii ":" ++ printNat u.port.toNat else []

def toString (u : URL) : Bytes :=
  (if u.scheme ≠ [] then u.scheme ++ ascii "://" else []) ++
  (if u.domainName ≠ [] then u.domainName ++ u.printPort else []) ++
  u.pathToResource ++
  (if ¬ u.queryParameters.isEmpty then ascii "?" ++ printParams true u.queryParameters.toList
    else []) ++
  (if u.anchor ≠ [] then ascii "#" ++ u.anchor else [])

end URL

end Fion.Http
