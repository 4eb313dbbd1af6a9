import Sails.Base.UrlCoding
import Sails.Net.Http.Headers

/-!
# `HttpRequest::GetParam`

The parameters of a request are its headers and what stands in its query string, which is decoded
first and split afterwards.

- `ParamRequest.getParam`: the parameters are collected at the first call and kept
- `paramsOf`: what two levels of splitting make of a decoded query
-/

namespace Sails.Net

open TransitionRun (Fault)
open CMemory
open Sails.Base
open Tokens

/-! ## The request -/

/-- What stands in memory behind the characters `token` and `ftoken`, whose addresses are given to
`split` as C strings. -/
structure StackMemory where
  behindToken : Bytes
  behindFtoken : Bytes

/-- `HttpRequest`, with the parameters it has collected. -/
structure ParamRequest where
  rawData : Option HttpMessage
  isParseParam : Bool
  param : List (Bytes × Bytes)

/-- The constructor. -/
def ParamRequest.new (rawData : HttpMessage) : ParamRequest := ⟨some rawData, false, []⟩

/-- `std::map::insert`: a key that is there keeps its value. -/
def insertParam (param : List (Bytes × Bytes)) (p : Bytes × Bytes) : List (Bytes × Bytes) :=
  if (param.lookup p.1).isSome then param else param ++ [p]

/-- `std::string` of a C string. -/
def stringOf (memory : Bytes) : Except Fault Bytes := do
  let len ← strlen memory
  return memory.take len

/-- The loop over the headers. -/
def headerParams (m : HttpMessage) (param : List (Bytes × Bytes)) (i : Nat) :
    Nat → Except Fault (List (Bytes × Bytes))
  | 0 => .ok param
  | remaining + 1 => do
    let j ← headerAt i
    let key ← stringOf (m.headers j).name.bytes
    let value ← stringOf (m.headers j).value.bytes
    headerParams m (insertParam param (key, value)) (i + 1) remaining

/-- The loop over the items of the query: those with two fields are parameters. -/
def queryParams (stack : StackMemory) (param : List (Bytes × Bytes)) :
    List Bytes → Except Fault (List (Bytes × Bytes))
  | [] => .ok param
  | item :: items => do
    let fields ← split item (ascii "=" ++ stack.behindFtoken)
    match fields with
    | [key, value] => queryParams stack (insertParam param (key, value)) items
    | _ => queryParams stack param items

/-- The first call of `GetParam`: the headers, then the query string. -/
def parseParam (stack : StackMemory) (m : HttpMessage) (param : List (Bytes × Bytes)) :
    Except Fault (List (Bytes × Bytes)) := do
  let param ← headerParams m param 0 m.numHeaders.toNat
  let len ← strlen m.queryString.bytes
  if 0 < len then
    let decoded ← urlDecode m.queryString.bytes (List.replicate maxElementSize 0) maxElementSize
    let str ← stringOf decoded
    let items ← split str (ascii "&" ++ stack.behindToken)
    queryParams stack param items
  else return param

/-- `GetParam(param_name)`. -/
def ParamRequest.getParam (stack : StackMemory) (r : ParamRequest) (paramName : Bytes) :
    Except Fault (ParamRequest × Bytes) := do
  let r ←
    if r.isParseParam then pure r
    else do
      let param ←
        match r.rawData with
        | some m => parseParam stack m r.param
        | none => pure r.param
      pure { r with isParseParam := true, param }
  return (r, (r.param.lookup paramName).getD [])

/-- Calls of `GetParam` one after the other. -/
def ParamRequest.getParams (stack : StackMemory) (r : ParamRequest) :
    List Bytes → Except Fault (ParamRequest × List Bytes)
  | [] => .ok (r, [])
  | name :: names => do
    let (r, value) ← r.getParam stack name
    let (r, values) ← r.getParams stack names
    return (r, value :: values)

/-! ## Encoding a query -/

/-- A text passed through `url_encode`, with a buffer that is large enough. -/
def urlEncoded (s : Bytes) : Except Fault Bytes := do
  let (buffer, _) ←
    urlEncode (s ++ [0]) (List.replicate (3 * s.length + 1) 0) (3 * s.length + 1 : Nat)
  stringOf buffer

/-- `key=value`. -/
def encodeItem (p : Bytes × Bytes) : Except Fault Bytes := do
  let key ← urlEncoded p.1
  let value ← urlEncoded p.2
  return key ++ ascii "=" ++ value

/-- `key1=value1&key2=value2&...`. -/
def encodeQuery (pairs : List (Bytes × Bytes)) : Except Fault Bytes := do
  let items ← pairs.mapM encodeItem
  return (ascii "&").intercalate items

end Sails.Net
