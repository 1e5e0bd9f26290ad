import Nghttp2Asio.Util

/-!
The URL parser of third-party/url-parser (url_parser.c, built with HTTP_PARSER_STRICT).
Offsets and lengths of the fields it finds are 16-bit numbers, as in
`struct http_parser_url`.
-/
namespace Nghttp2Asio.UrlParser

def colon : UInt8 := ':'.toUInt8
def atSign : UInt8 := '@'.toUInt8
def hash : UInt8 := '#'.toUInt8
def leftBracket : UInt8 := '['.toUInt8
def rightBracket : UInt8 := ']'.toUInt8

def normalUrlChar : List UInt8 :=
  [0, 0, 0, 0, 246, 255, 255, 127, 255, 255, 255, 255, 255, 255, 255, 127] ++ List.replicate 16 0

def bitAt (a : List UInt8) (i : UInt8) : Bool := (a.getD (i >>> 3).toNat 0) &&& (1 <<< (i &&& 7)) ≠ 0

def oneOf (cs : List Char) (c : UInt8) : Bool := cs.any (fun x => x.toUInt8 = c)

def lower (c : UInt8) : UInt8 := c ||| 0x20

def isAlpha (c : UInt8) : Bool := Util.between 'a' 'z' (lower c)

def isNum (c : UInt8) : Bool := Util.between '0' '9' c

def isAlphanum (c : UInt8) : Bool := isAlpha c || isNum c

def isHex (c : UInt8) : Bool := isNum c || Util.between 'a' 'f' (lower c)

-- 0x27 is the apostrophe
def isMark (c : UInt8) : Bool := oneOf ['-', '_', '.', '!', '~', '*', '(', ')'] c || c = 0x27

def isUserinfoChar (c : UInt8) : Bool :=
  isAlphanum c || isMark c || oneOf ['%', ';', ':', '&', '=', '+', '$', ','] c

def isUrlChar (c : UInt8) : Bool := bitAt normalUrlChar c

def isHostChar (c : UInt8) : Bool := isAlphanum c || oneOf ['.', '-'] c

def isV6Char (c : UInt8) : Bool := isHex c || oneOf [':', '.'] c

def isZoneChar (c : UInt8) : Bool := isAlphanum c || oneOf ['%', '.', '-', '_', '~'] c

/-- The states of `enum state` that a URL can reach. -/
inductive State where
  | dead | spacesBeforeUrl | schema | schemaSlash | schemaSlashSlash | serverStart | server
  | serverWithAt | path | queryStringStart | queryString | fragmentStart | fragment
  deriving DecidableEq, Repr

def serverChar (ch : UInt8) : State :=
  if ch = slash then .path
  else if ch = question then .queryStringStart
  else if ch = atSign then .serverWithAt
  else if isUserinfoChar ch || ch = leftBracket || ch = rightBracket then .server
  else .dead

def parseUrlChar (s : State) (ch : UInt8) : State :=
  if oneOf [' ', '\r', '\n', '\t', '\x0c'] ch then .dead
  else
    match s with
    | .spacesBeforeUrl =>
      if ch = slash || ch = '*'.toUInt8 then .path
      else if isAlpha ch then .schema
      else .dead
    | .schema =>
      if isAlpha ch then .schema
      else if ch = colon then .schemaSlash
      else .dead
    | .schemaSlash => if ch = slash then .schemaSlashSlash else .dead
    | .schemaSlashSlash => if ch = slash then .serverStart else .dead
    | .serverWithAt => if ch = atSign then .dead else serverChar ch
    | .serverStart => serverChar ch
    | .server => serverChar ch
    | .path =>
      if isUrlChar ch then .path
      else if ch = question then .queryStringStart
      else if ch = hash then .fragmentStart
      else .dead
    | .queryStringStart | .queryString =>
      if isUrlChar ch then .queryString
      else if ch = question then .queryString
      else if ch = hash then .fragmentStart
      else .dead
    | .fragmentStart =>
      if isUrlChar ch then .fragment
      else if ch = question then .fragment
      else if ch = hash then .fragmentStart
      else .dead
    | .fragment =>
      if isUrlChar ch then .fragment
      else if ch = question || ch = hash then .fragment
      else .dead
    | .dead => .dead

inductive HostState where
  | dead | userinfoStart | userinfo | hostStart | hostV6Start | host | hostV6 | hostV6End
  | hostV6ZoneStart | hostV6Zone | portStart | port
  deriving DecidableEq, Repr

def httpParseHostChar (s : HostState) (ch : UInt8) : HostState :=
  match s with
  | .userinfo | .userinfoStart =>
    if ch = atSign then .hostStart
    else if isUserinfoChar ch then .userinfo
    else .dead
  | .hostStart =>
    if ch = leftBracket then .hostV6Start
    else if isHostChar ch then .host
    else .dead
  | .host =>
    if isHostChar ch then .host
    else if ch = colon then .portStart
    else .dead
  | .hostV6End => if ch = colon then .portStart else .dead
  | .hostV6 =>
    if ch = rightBracket then .hostV6End
    else if isV6Char ch then .hostV6
    else if ch = percent then .hostV6ZoneStart
    else .dead
  | .hostV6Start => if isV6Char ch then .hostV6 else .dead
  | .hostV6Zone =>
    if ch = rightBracket then .hostV6End
    else if isZoneChar ch then .hostV6Zone
    else .dead
  | .hostV6ZoneStart => if isZoneChar ch then .hostV6Zone else .dead
  | .port | .portStart => if isNum ch then .port else .dead
  | .dead => .dead

inductive UrlField where
  | schema | host | port | path | query | fragment | userinfo
  deriving DecidableEq, Repr

structure FieldData where
  off : Nat
  len : Nat
  deriving DecidableEq, Repr

structure HttpParserUrl where
  fieldSet : UrlField → Bool
  port : Nat
  fieldData : UrlField → FieldData

def HttpParserUrl.init : HttpParserUrl := ⟨fun _ => false, 0, fun _ => ⟨0, 0⟩⟩

def uint16 (n : Nat) : Nat := n % 2 ^ 16

def HttpParserUrl.put (u : HttpParserUrl) (uf : UrlField) (data : FieldData) : HttpParserUrl :=
  { u with fieldData := fun g => if g = uf then data else u.fieldData g }

def HttpParserUrl.mark (u : HttpParserUrl) (uf : UrlField) : HttpParserUrl :=
  { u with fieldSet := fun g => if g = uf then true else u.fieldSet g }

def HttpParserUrl.grow (u : HttpParserUrl) (uf : UrlField) : HttpParserUrl :=
  u.put uf ⟨(u.fieldData uf).off, uint16 ((u.fieldData uf).len + 1)⟩

def HttpParserUrl.window (u : HttpParserUrl) (buf : Bytes) (uf : UrlField) : Bytes :=
  (buf.drop (u.fieldData uf).off).take (u.fieldData uf).len

structure Scan where
  state : State
  url : HttpParserUrl
  oldUf : Option UrlField
  foundAt : Bool

def Scan.field (sc : Scan) (p : Nat) (uf : UrlField) : Scan :=
  if sc.oldUf = some uf then { sc with url := sc.url.grow uf }
  else { sc with url := (sc.url.put uf ⟨uint16 p, 1⟩).mark uf, oldUf := some uf }

def Scan.char (sc : Scan) (p : Nat) (ch : UInt8) : Option Scan :=
  let sc := { sc with state := parseUrlChar sc.state ch }
  match sc.state with
  | .dead => none
  | .schemaSlash | .schemaSlashSlash | .serverStart | .queryStringStart | .fragmentStart => some sc
  | .schema => some (sc.field p .schema)
  | .serverWithAt => some ({ sc with foundAt := true }.field p .host)
  | .server => some (sc.field p .host)
  | .path => some (sc.field p .path)
  | .queryString => some (sc.field p .query)
  | .fragment => some (sc.field p .fragment)
  | .spacesBeforeUrl => none

def Scan.loop (sc : Scan) (p : Nat) : Bytes → Option Scan
  | [] => some sc
  | ch :: rest => (sc.char p ch).bind (fun sc => sc.loop (p + 1) rest)

structure HostScan where
  state : HostState
  url : HttpParserUrl

/-- A field whose length starts at zero when the automaton enters it. -/
def HostScan.enter (hs : HostScan) (s : HostState) (p : Nat) (uf : UrlField) : HttpParserUrl :=
  if hs.state ≠ s then (hs.url.put uf ⟨uint16 p, 0⟩).mark uf else hs.url

/-- The host is marked already; only its offset moves. -/
def HostScan.move (hs : HostScan) (s : HostState) (p : Nat) : HttpParserUrl :=
  if hs.state ≠ s then hs.url.put .host ⟨uint16 p, (hs.url.fieldData .host).len⟩ else hs.url

def HostScan.char (hs : HostScan) (p : Nat) (ch : UInt8) : Option HostScan :=
  let s := httpParseHostChar hs.state ch
  match s with
  | .dead => none
  | .host => some ⟨s, (hs.move s p).grow .host⟩
  | .hostV6 => some ⟨s, (hs.move s p).grow .host⟩
  | .hostV6ZoneStart | .hostV6Zone => some ⟨s, hs.url.grow .host⟩
  | .port => some ⟨s, (hs.enter s p .port).grow .port⟩
  | .userinfo => some ⟨s, (hs.enter s p .userinfo).grow .userinfo⟩
  | .userinfoStart | .hostStart | .hostV6Start | .hostV6End | .portStart => some ⟨s, hs.url⟩

def HostScan.loop (hs : HostScan) (p : Nat) : Bytes → Option HostScan
  | [] => some hs
  | ch :: rest => (hs.char p ch).bind (fun hs => hs.loop (p + 1) rest)

/-- "Make sure we don't end somewhere unexpected" -/
def HostState.final : HostState → Bool
  | .hostStart | .hostV6Start | .hostV6 | .hostV6ZoneStart | .hostV6Zone | .portStart
  | .userinfo | .userinfoStart => false
  | .dead | .host | .hostV6End | .port => true

def httpParseHost (buf : Bytes) (u : HttpParserUrl) (foundAt : Bool) : Option HttpParserUrl :=
  let start : HostScan := {
    state := if foundAt then .userinfoStart else .hostStart
    url := u.put .host ⟨(u.fieldData .host).off, 0⟩ }
  (start.loop (u.fieldData .host).off (u.window buf .host)).bind
    (fun hs => if hs.state.final then some hs.url else none)

/-- `v` is an unsigned long; a byte below `'0'` wraps around. -/
def portLoop (v : Nat) : Bytes → Option Nat
  | [] => some v
  | c :: rest =>
    let v := (((v * 10 % 2 ^ 64 : Nat) + (c.toInt8.toInt - 48)) % 2 ^ 64 : Int).toNat
    if v > 0xffff then none else portLoop v rest

def parsePort (buf : Bytes) (u : HttpParserUrl) : Option HttpParserUrl :=
  if u.fieldSet .port then
    (portLoop 0 (u.window buf .port)).map (fun v => { u with port := uint16 v })
  else some u

def connectOnly (u : HttpParserUrl) : Bool :=
  u.fieldSet .host && u.fieldSet .port && !u.fieldSet .schema && !u.fieldSet .path &&
    !u.fieldSet .query && !u.fieldSet .fragment && !u.fieldSet .userinfo

def hostPass (buf : Bytes) (sc : Scan) : Option HttpParserUrl :=
  if sc.url.fieldSet .host then httpParseHost buf sc.url sc.foundAt else some sc.url

def httpParserParseUrl (buf : Bytes) (isConnect : Bool) : Option HttpParserUrl :=
  if buf = [] then none
  else do
    let start : State := if isConnect then .serverStart else .spacesBeforeUrl
    let sc ← Scan.loop ⟨start, .init, none, false⟩ 0 buf
    if sc.url.fieldSet .schema && !sc.url.fieldSet .host then none
    else
      let u ← hostPass buf sc
      if isConnect && !connectOnly u then none else parsePort buf u

example : ((httpParserParseUrl (lit "http://u@[::1%25lo]:080/a?b") false).map
    (fun u => (u.window (lit "http://u@[::1%25lo]:080/a?b") .host, u.port))) =
    some (lit "::1%25lo", 80) := by decide +kernel

end Nghttp2Asio.UrlParser
