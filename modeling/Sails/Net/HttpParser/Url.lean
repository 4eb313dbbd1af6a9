import Sails.Net.HttpParser.State

/-!
# URLs

The URL parser that `http_parser_execute` and `http_parser_parse_url` share, and the second of the
two, which cuts a URL into its fields.

- `parseUrlChar`: one step of the URL parser
- `parseHostChar`, `parseHost`: the second pass, over the host with user info and port
- `parseUrl`: `http_parser_parse_url`
-/

namespace Sails.HttpParser

open TransitionRun (Fault)
open CMemory

/-! ## One character -/

/-- `parse_url_char`. -/
def parseUrlChar (s : State) (ch : UInt8) : State :=
  if ch = code ' ' ∨ ch = cr ∨ ch = lf then .dead
  else if ch = 9 ∨ ch = 12 then .dead
  else
    match s with
    | .reqSpacesBeforeUrl =>
      if ch = code '/' ∨ ch = code '*' then .reqPath
      else if isAlpha ch then .reqSchema
      else .dead
    | .reqSchema =>
      if isAlpha ch then .reqSchema
      else if ch = code ':' then .reqSchemaSlash
      else .dead
    | .reqSchemaSlash => if ch = code '/' then .reqSchemaSlashSlash else .dead
    | .reqSchemaSlashSlash => if ch = code '/' then .reqServerStart else .dead
    | .reqServerWithAt => if ch = code '@' then .dead else serverChar
    | .reqServerStart | .reqServer => serverChar
    | .reqPath =>
      if isUrlChar ch then .reqPath
      else if ch = code '?' then .reqQueryStringStart
      else if ch = code '#' then .reqFragmentStart
      else .dead
    | .reqQueryStringStart | .reqQueryString =>
      if isUrlChar ch then .reqQueryString
      else if ch = code '?' then .reqQueryString
      else if ch = code '#' then .reqFragmentStart
      else .dead
    | .reqFragmentStart =>
      if isUrlChar ch then .reqFragment
      else if ch = code '?' then .reqFragment
      else if ch = code '#' then .reqFragmentStart
      else .dead
    | .reqFragment =>
      if isUrlChar ch then .reqFragment
      else if ch = code '?' ∨ ch = code '#' then .reqFragment
      else .dead
    | _ => .dead
where
  /-- The case of `s_req_server_start` and `s_req_server`. -/
  serverChar : State :=
    if ch = code '/' then .reqPath
    else if ch = code '?' then .reqQueryStringStart
    else if ch = code '@' then .reqServerWithAt
    else if isUserinfoChar ch ∨ ch = code '[' ∨ ch = code ']' then .reqServer
    else .dead

theorem parseUrlChar_dead (ch : UInt8) : parseUrlChar .dead ch = .dead := by
  unfold parseUrlChar
  split_ifs <;> rfl

theorem foldl_parseUrlChar_dead (url : Bytes) : url.foldl parseUrlChar .dead = .dead := by
  induction url with
  | nil => rfl
  | cons ch url ih => rw [List.foldl_cons, parseUrlChar_dead, ih]

/-! ## Fields -/

/-- `enum http_parser_url_fields`. -/
inductive UrlField where
  | schema | host | port | path | query | fragment | userinfo
  deriving DecidableEq

/-- `field_data[..]`, two 16-bit numbers. -/
structure FieldData where
  off : UInt16
  len : UInt16
  deriving DecidableEq

/-- `struct http_parser_url`; `fieldSet` is the bitmask, one bit a field. -/
structure Url where
  fieldSet : UrlField → Bool
  port : UInt16
  fieldData : UrlField → FieldData

/-- `u` with the field `f` changed, and its bit set. -/
def Url.setField (u : Url) (f : UrlField) (d : FieldData) : Url :=
  { u with
    fieldSet := fun g => if g = f then true else u.fieldSet g
    fieldData := fun g => if g = f then d else u.fieldData g }

/-- `field_data[f].len++`. -/
def Url.grow (u : Url) (f : UrlField) : Url :=
  { u with
    fieldData := fun g =>
      if g = f then { u.fieldData f with len := (u.fieldData f).len + 1 } else u.fieldData g }

/-! ## The host -/

/-- `enum http_host_state`. -/
inductive HostState where
  | dead | userinfoStart | userinfo | hostStart | hostV6Start | host | hostV6 | hostV6End
  | portStart | port
  deriving DecidableEq

/-- `http_parse_host_char`. -/
def parseHostChar (s : HostState) (ch : UInt8) : HostState :=
  match s with
  | .userinfo | .userinfoStart =>
    if ch = code '@' then .hostStart
    else if isUserinfoChar ch then .userinfo
    else .dead
  | .hostStart =>
    if ch = code '[' then .hostV6Start
    else if isHostChar ch then .host
    else .dead
  | .host =>
    if isHostChar ch then .host
    else if ch = code ':' then .portStart
    else .dead
  | .hostV6End => if ch = code ':' then .portStart else .dead
  | .hostV6 =>
    if ch = code ']' then .hostV6End
    else if isHex ch ∨ ch = code ':' ∨ ch = code '.' then .hostV6
    else .dead
  | .hostV6Start =>
    if isHex ch ∨ ch = code ':' ∨ ch = code '.' then .hostV6 else .dead
  | .port | .portStart => if isNum ch then .port else .dead
  | .dead => .dead

/-- The switch of `http_parse_host` on the new state, at `p - buf = p`. -/
def hostField (u : Url) (s newS : HostState) (p : Nat) : Url :=
  match newS with
  | .host | .hostV6 =>
    -- the bit of the host is set already
    let u := if s ≠ newS then
      { u with
        fieldData := fun g =>
          if g = .host then { u.fieldData .host with off := p.toUInt16 } else u.fieldData g }
      else u
    u.grow .host
  | .port =>
    let u := if s ≠ .port then u.setField .port ⟨p.toUInt16, 0⟩ else u
    u.grow .port
  | .userinfo =>
    let u := if s ≠ .userinfo then u.setField .userinfo ⟨p.toUInt16, 0⟩ else u
    u.grow .userinfo
  | _ => u

/-- The loop of `http_parse_host` over the `n` characters from `buf + p` on; `none` is the
result 1. -/
def hostLoop (buf : Bytes) (u : Url) (s : HostState) (p : Nat) :
    Nat → Except Fault (Option (Url × HostState))
  | 0 => .ok (some (u, s))
  | n + 1 =>
    match buf[p]? with
    | none => .error .outOfBounds
    | some ch =>
      let newS := parseHostChar s ch
      if newS = .dead then .ok none else hostLoop buf (hostField u s newS p) newS (p + 1) n

/-- The states in which a host may end. -/
def HostState.final : HostState → Bool
  | hostStart | hostV6Start | hostV6 | portStart | userinfo | userinfoStart => false
  | _ => true

/-- `http_parse_host`. -/
def parseHost (buf : Bytes) (u : Url) (foundAt : Bool) : Except Fault (Option Url) := do
  let d := u.fieldData .host
  let u := { u with
    fieldData := fun g => if g = .host then { d with len := 0 } else u.fieldData g }
  let s := if foundAt then .userinfoStart else .hostStart
  -- `off` and `len` are promoted to int, so the sum `buflen` does not wrap
  match ← hostLoop buf u s d.off.toNat d.len.toNat with
  | none => .ok none
  | some (u, s) => .ok (if s.final then some u else none)

/-! ## `http_parser_parse_url` -/

/-- The field a state of the URL parser belongs to; `none` is a delimiter. -/
def State.urlField : State → Option UrlField
  | reqSchema => some .schema
  | reqServerWithAt | reqServer => some .host
  | reqPath => some .path
  | reqQueryString => some .query
  | reqFragment => some .fragment
  | _ => none

/-- The loop of `http_parser_parse_url` from `p - buf = p` on, with `old_uf` and `found_at`;
`none` is the result 1. -/
def urlLoop (u : Url) (s : State) (oldUf : Option UrlField) (foundAt : Bool) (p : Nat) :
    Bytes → Option (Url × Bool)
  | [] => some (u, foundAt)
  | ch :: rest =>
    let s := parseUrlChar s ch
    if s = .dead then none
    else
      let foundAt := foundAt || s = .reqServerWithAt
      match s.urlField with
      | none => urlLoop u s oldUf foundAt (p + 1) rest
      | some uf =>
        if some uf = oldUf then urlLoop (u.grow uf) s oldUf foundAt (p + 1) rest
        else urlLoop (u.setField uf ⟨p.toUInt16, 1⟩) s (some uf) foundAt (p + 1) rest

/-- `strtoul` on a text that starts with digits; it saturates above 2^16. -/
def strtoul (s : Bytes) : Except Fault Nat :=
  if s.all isNum then .error .outOfBounds
  else .ok ((s.takeWhile isNum).foldl (fun n c => n * 10 + digit c) 0)

/-- The end of `http_parser_parse_url`: the port as a number. -/
def convertPort (buf : Bytes) (u : Url) : Except Fault (Option Url) :=
  if u.fieldSet .port then do
    let v ← strtoul (buf.drop (u.fieldData .port).off.toNat)
    .ok (if v > 0xffff then none else some { u with port := v.toUInt16 })
  else .ok (some u)

/-- The second pass, over the host of a URL that has a schema or a host. -/
def checkHost (buf : Bytes) (u : Url) (foundAt : Bool) : Except Fault (Option Url) :=
  if u.fieldSet .schema ∨ u.fieldSet .host then parseHost buf u foundAt else .ok (some u)

/-- Of a CONNECT request: the bits of host and port, and no others. -/
def Url.hostAndPort (u : Url) : Bool :=
  u.fieldSet .host && u.fieldSet .port && !u.fieldSet .schema && !u.fieldSet .path &&
    !u.fieldSet .query && !u.fieldSet .fragment && !u.fieldSet .userinfo

/-- `http_parser_parse_url` on the memory from `buf` on. `fieldData` is what stands in the
caller's record, of which only `port` and `field_set` are cleared. -/
def parseUrl (fieldData : UrlField → FieldData) (buf : Bytes) (buflen : Nat) (isConnect : Bool) :
    Except Fault (Option Url) := do
  let s := if isConnect then State.reqServerStart else .reqSpacesBeforeUrl
  match urlLoop ⟨fun _ => false, 0, fieldData⟩ s none false 0 (buf.take buflen) with
  | none => .ok none
  | some (u, foundAt) =>
    match ← checkHost buf u foundAt with
    | none => .ok none
    | some u => if isConnect ∧ !u.hostAndPort then .ok none else convertPort buf u

end Sails.HttpParser
