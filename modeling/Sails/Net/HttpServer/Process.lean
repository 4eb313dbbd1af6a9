import Sails.Library.LexicalPath
import Sails.Net.Http.Message

/-!
# `HttpServer::process`: processors and static files

A request is answered by the processor registered for its path; for any other path the
server opens the file whose name is `StaticResourcePath()` followed by what the path says.

- `registerProcessor`, `findProcessor`, `process`: translated from `http_server.cc`
- `process_opens_below_root_iff`: which requests open a file at or below the static root

The file system answers `open`, `stat` and `read`, and the MIME table is a parameter. What
`process` makes of the response is recorded as the calls it makes on it, in order.
-/

namespace Sails.Net

open TransitionRun (Fault)
open CMemory
open LexicalPath

/-! ## The code -/

/-- `HttpRequest`. -/
structure HttpRequest where
  rawData : Option HttpMessage

/-- `GetRequestPath`. -/
def HttpRequest.getRequestPath (request : HttpRequest) : Bytes :=
  match request.rawData with
  | none => []
  | some message => message.requestPath.str

/-- A call on the response. -/
inductive ResponseCall where
  | setHeader (key value : Bytes)
  | setResponseStatus (status : Nat)
  /-- `SetBody(body, len)`, with the bytes at `body` -/
  | setBody (body : Bytes) (len : Int)
  deriving DecidableEq

/-- `HttpProcessor`. -/
abbrev HttpProcessor := HttpRequest → List ResponseCall

/-- The members of `HttpServer` that a request meets. -/
structure HttpServer where
  processorMap : List (Bytes × HttpProcessor)
  staticResourcePath : Bytes

/-- The constructor's static root, `./static/`. -/
def HttpServer.init : HttpServer := { processorMap := [], staticResourcePath := ascii "./static/" }

/-- `FindProcessor`; `none` is `NULL`. -/
def HttpServer.findProcessor (server : HttpServer) (path : Bytes) : Option HttpProcessor :=
  server.processorMap.lookup path

/-- `RegisterProcessor`; `none` is `NULL`. -/
def HttpServer.registerProcessor (server : HttpServer) (path : Bytes)
    (processor : Option HttpProcessor) : HttpServer × Int :=
  match processor with
  | none => (server, -1)
  | some processor =>
    match server.processorMap.lookup path with
    | some _ => (server, 1)
    | none => ({ server with processorMap := (path, processor) :: server.processorMap }, 0)

/-- What the file system answers for one path. -/
inductive FileAnswer where
  | openFailed
  | statFailed
  /-- `st_size`, and what `read(fd, data, size + 1)` delivers (`none` for -1) -/
  | file (size : Nat) (data : Option Bytes)

/-- The surroundings of a request: the file system, and the MIME table with the type and
the subtype of an extension (an empty type when there is none). -/
structure Surroundings where
  files : Bytes → FileAnswer
  mimeType : Bytes → Bytes × Bytes

/-- `path.find_last_of(c)` as an `int`: -1 when `c` does not occur. -/
def findLastOf (path : Bytes) (c : UInt8) : Int :=
  match path.reverse.findIdx? (· == c) with
  | none => -1
  | some i => path.length - 1 - i

/-- The `Content-Type` that the suffix of the path presets. -/
def presetContentType (env : Surroundings) (path : Bytes) : List ResponseCall :=
  let extensionIndex := findLastOf path dot
  if extensionIndex > 0 then
    let fileExtension := (path.drop extensionIndex.toNat).take 7
    if fileExtension.length > 0 ∧ (env.mimeType fileExtension).1.length > 0 then
      [.setHeader (ascii "Content-Type")
        ((env.mimeType fileExtension).1 ++ [slash] ++ (env.mimeType fileExtension).2)]
    else []
  else []

/-- The name a path asks for below the static root. -/
def filename (path : Bytes) : Bytes :=
  if path.length = 1 then
    if path = [slash] then ascii "index.html" else []
  else if path.length = 0 then ascii "index.html"
  else (path.drop 1).take 100

/-- What happened to a request: the file it opened (by the C string given to `open`), the
descriptors that were opened and not closed, the calls made on the response. -/
structure Processed where
  opened : Option Bytes
  descriptors : Nat
  calls : List ResponseCall
  deriving DecidableEq

/-- The part of `process` behind a successful choice of the file: read it at once. -/
def serveFile (env : Surroundings) (filepath : Bytes) (preset : List ResponseCall) : Processed :=
  let notFound : List ResponseCall := [.setResponseStatus 404, .setBody (ascii "404") 3]
  match env.files filepath with
  | .openFailed => ⟨some filepath, 0, preset ++ notFound⟩
  | .statFailed => ⟨some filepath, 1, preset ++ notFound⟩
  | .file size data =>
    if size % 2 ^ 32 > maxBodySize then
      ⟨some filepath, 1, preset ++ [.setBody (ascii "The File Too Large") 18]⟩
    else
      match data with
      | none => ⟨some filepath, 1, preset ++ [.setBody [] (-1)]⟩
      | some bytes => ⟨some filepath, 1, preset ++ [.setBody bytes bytes.length]⟩

/-- `process`. -/
def HttpServer.process (server : HttpServer) (env : Surroundings) (request : HttpRequest) :
    Processed :=
  let path := request.getRequestPath
  let preset := presetContentType env path
  match server.findProcessor path with
  | none => serveFile env (text (server.staticResourcePath ++ filename path)) preset
  | some processor => ⟨none, 0, preset ++ processor request⟩

/-! ## Processors -/

/-- A path has a processor after a registration that did not fail. -/
theorem findProcessor_registerProcessor (server : HttpServer) (path : Bytes)
    (processor : HttpProcessor) :
    ((server.registerProcessor path (some processor)).1.findProcessor path).isSome := by
  simp only [HttpServer.registerProcessor, HttpServer.findProcessor]
  cases hfound : server.processorMap.lookup path with
  | none => simp
  | some old => simp [hfound]

/-- Registration for one path is not seen at another. -/
theorem findProcessor_registerProcessor_of_ne (server : HttpServer) {path other : Bytes}
    (processor : Option HttpProcessor) (h : other ≠ path) :
    (server.registerProcessor path processor).1.findProcessor other =
      server.findProcessor other := by
  cases processor with
  | none => rfl
  | some processor =>
    simp only [HttpServer.registerProcessor, HttpServer.findProcessor]
    cases server.processorMap.lookup path with
    | none =>
      have hne : (other == path) = false := by simpa using h
      simp [List.lookup_cons, hne]
    | some old => rfl

/-! ## The static root -/

/-- Exactly the paths without a processor open a file: the root followed by the name. -/
theorem process_opened (server : HttpServer) (env : Surroundings) (request : HttpRequest)
    (h : server.findProcessor request.getRequestPath = none) :
    (server.process env request).opened =
      some (text (server.staticResourcePath ++ filename request.getRequestPath)) := by
  simp only [HttpServer.process, h, serveFile]
  split
  · rfl
  · rfl
  · split
    · rfl
    · split <;> rfl

/-- The file at `filepath` lies at or below the static root. -/
def HttpServer.BelowRoot (server : HttpServer) (cwd : List Bytes) (filepath : Bytes) : Prop :=
  resolve cwd (text server.staticResourcePath) <:+ resolve cwd filepath

instance (server : HttpServer) (cwd : List Bytes) (filepath : Bytes) :
    Decidable (server.BelowRoot cwd filepath) :=
  inferInstanceAs (Decidable (_ <:+ _))

/-- What is left of the file name in the C string of root and name. -/
def HttpServer.openedName (server : HttpServer) (path : Bytes) : Bytes :=
  if 0 ∈ server.staticResourcePath then [] else text (filename path)

theorem text_root_append (server : HttpServer) (path : Bytes) :
    text (server.staticResourcePath ++ filename path) =
      text server.staticResourcePath ++ server.openedName path := by
  rw [text_append, HttpServer.openedName]
  split
  · rw [List.append_nil]
  · rename_i hroot
    rw [text_eq_self fun c hc hzero => hroot (hzero ▸ hc)]

/-- Read behind the directory part of the root (what stands before its last slash), the
rest of the root and the file name climb some levels and then enter some names: the first
names entered are the way back to the root. -/
def HttpServer.Returns (server : HttpServer) (cwd : List Bytes) (path : Bytes) : Prop :=
  let root := text server.staticResourcePath
  wayBack (directory cwd root) (component (lastPart root))
    (climbed cwd root (server.openedName path)) <:+ entered root (server.openedName path)

/-- Below a root that ends in a slash, a name that never climbs has no way to go back. -/
theorem returns_of_climbed_eq_zero {server : HttpServer} {cwd : List Bytes} {path : Bytes}
    (hroot : lastPart (text server.staticResourcePath) = [])
    (hclimb : climbed cwd (text server.staticResourcePath) (server.openedName path) = 0) :
    server.Returns cwd path := by
  simp [HttpServer.Returns, hroot, hclimb, component, wayBack]

/-- **Static files**: for every request without a registered processor, the file opened lies
at or below the static root exactly when the path, wherever it climbs above the root, comes
back by the root's own names. -/
theorem process_opens_below_root_iff (server : HttpServer) (env : Surroundings)
    (request : HttpRequest) (cwd : List Bytes)
    (h : server.findProcessor request.getRequestPath = none) :
    (∃ filepath, (server.process env request).opened = some filepath ∧
      server.BelowRoot cwd filepath) ↔ server.Returns cwd request.getRequestPath := by
  have hbelow : server.BelowRoot cwd
      (text (server.staticResourcePath ++ filename request.getRequestPath)) ↔
        server.Returns cwd request.getRequestPath := by
    rw [HttpServer.BelowRoot, text_root_append, resolve_suffix_resolve_append_iff]
    rfl
  rw [process_opened server env request h, ← hbelow]
  constructor
  · rintro ⟨filepath, hopened, hroot⟩
    exact Option.some.inj hopened ▸ hroot
  · exact fun hroot => ⟨_, rfl, hroot⟩

/-- No file can be opened. -/
def emptySurroundings : Surroundings := { files := fun _ => .openFailed, mimeType := fun _ => ([], []) }

/-- A request for `path`. -/
def requestFor (path : Bytes) (h : path.length < maxPathSize) : HttpRequest :=
  ⟨some { HttpMessage.init with requestPath := .ofText maxPathSize path h }⟩

theorem getRequestPath_requestFor {path : Bytes} (h : path.length < maxPathSize)
    (hpath : ∀ c ∈ path, c ≠ 0) : (requestFor path h).getRequestPath = path :=
  CharArray.str_ofText h hpath

theorem process_opens_below_root_index :
    (∃ filepath, (HttpServer.init.process emptySurroundings
        (requestFor (ascii "/css/../a.css") (by decide))).opened = some filepath ∧
      HttpServer.init.BelowRoot [ascii "srv"] filepath) ↔
    HttpServer.init.Returns [ascii "srv"]
      (requestFor (ascii "/css/../a.css") (by decide)).getRequestPath :=
  process_opens_below_root_iff HttpServer.init emptySurroundings _ _ rfl

/-- With the default root, `/../../etc/passwd` opens the file of that name. -/
theorem process_opens_outside_root :
    ¬ ∀ (server : HttpServer) (env : Surroundings) (request : HttpRequest) (cwd : List Bytes),
      server.findProcessor request.getRequestPath = none →
      ∃ filepath, (server.process env request).opened = some filepath ∧
        server.BelowRoot cwd filepath := by
  intro hclaim
  obtain ⟨filepath, hopened, hbelow⟩ := hclaim HttpServer.init emptySurroundings
    (requestFor (ascii "/../../etc/passwd") (by decide)) [ascii "srv"] rfl
  rw [process_opened _ _ _ rfl, getRequestPath_requestFor _ (by simp [ascii])] at hopened
  rw [← Option.some.inj hopened] at hbelow
  revert hbelow
  decide

end Sails.Net
