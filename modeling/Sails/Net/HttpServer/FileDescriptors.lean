import Sails.Library.Run
import Sails.Net.HttpServer.Process
import Mathlib.Data.Finset.Insert
import Mathlib.Data.Finset.Card

/-!
# The descriptors of the files served

`process` opens the file a path names before it asks for its size and reads it. Here it is
translated with the set of descriptors the process has open: `open` adds one, and no exit of the
function calls `close`.

- `processWith`: `process` on a set of open descriptors
- `processWith_descriptors_iff`: the requests after which the set is what it was
- `card_of_serveAll`: what a server that runs on has open
-/

namespace Sails.Net

open TransitionRun
open CMemory
open LexicalPath

/-! ## The code -/

/-- The branch of `process` for a file, when the next descriptor `open` returns is `fd`. -/
def serveFileWith (env : Surroundings) (fd : Nat) (filepath : Bytes) (fds : Finset Nat) :
    Finset Nat × List ResponseCall :=
  let notFound : List ResponseCall := [.setResponseStatus 404, .setBody (ascii "404") 3]
  match env.files filepath with
  | .openFailed => (fds, notFound)
  | .statFailed =>
    let fds := insert fd fds  -- `open`
    (fds, notFound)
  | .file size data =>
    let fds := insert fd fds
    if size % 2 ^ 32 > maxBodySize then
      (fds, [.setBody (ascii "The File Too Large") 18])
    else
      match data with
      | none => (fds, [.setBody [] (-1)])
      | some bytes => (fds, [.setBody bytes bytes.length])

/-- `process` with the descriptors that are open; a processor leaves them alone. -/
def HttpServer.processWith (server : HttpServer) (env : Surroundings) (fd : Nat)
    (request : HttpRequest) (fds : Finset Nat) : Finset Nat × List ResponseCall :=
  let path := request.getRequestPath
  let preset := presetContentType env path
  match server.findProcessor path with
  | none =>
    let (fds, calls) := serveFileWith env fd (text (server.staticResourcePath ++ filename path)) fds
    (fds, preset ++ calls)
  | some processor => (fds, preset ++ processor request)

theorem serveFileWith_eq (env : Surroundings) (fd : Nat) (filepath : Bytes)
    (preset : List ResponseCall) (fds : Finset Nat) :
    preset ++ (serveFileWith env fd filepath fds).2 = (serveFile env filepath preset).calls ∧
      (serveFileWith env fd filepath fds).1 =
        if (serveFile env filepath preset).descriptors = 0 then fds else insert fd fds := by
  unfold serveFileWith serveFile
  -- exit by exit; the two descriptions differ in how they count
  cases env.files filepath with
  | openFailed => exact ⟨rfl, rfl⟩
  | statFailed => exact ⟨rfl, rfl⟩
  | file size data =>
    dsimp only
    split
    · exact ⟨rfl, rfl⟩
    · cases data <;> exact ⟨rfl, rfl⟩

/-- The response is the one of `process`, and so is the number of descriptors left open. -/
theorem processWith_eq (server : HttpServer) (env : Surroundings) (fd : Nat) (request : HttpRequest)
    (fds : Finset Nat) :
    (server.processWith env fd request fds).2 = (server.process env request).calls ∧
      (server.processWith env fd request fds).1 =
        if (server.process env request).descriptors = 0 then fds else insert fd fds := by
  -- a processor opens nothing
  cases hproc : server.findProcessor request.getRequestPath with
  | some processor =>
    simp only [HttpServer.processWith, HttpServer.process, hproc, if_true, and_self]
  | none =>
    simp only [HttpServer.processWith, HttpServer.process, hproc]
    exact serveFileWith_eq ..

/-! ## One request -/

/-- The request opens a file: it has no processor, and `open` succeeds. -/
def HttpServer.OpensFile (server : HttpServer) (env : Surroundings) (request : HttpRequest) : Prop :=
  server.findProcessor request.getRequestPath = none ∧
    env.files (text (server.staticResourcePath ++ filename request.getRequestPath)) ≠ .openFailed

/-- Every exit behind `open` leaves the descriptor open. -/
theorem serveFileWith_opened {env : Surroundings} {filepath : Bytes}
    (h : env.files filepath ≠ .openFailed) (fd : Nat) (fds : Finset Nat) :
    (serveFileWith env fd filepath fds).1 = insert fd fds := by
  unfold serveFileWith
  -- no exit behind `open` is left out
  cases hfile : env.files filepath with
  | openFailed => exact absurd hfile h
  | statFailed => rfl
  | file size data =>
    dsimp only
    split
    · rfl
    · cases data <;> rfl

theorem processWith_opened {server : HttpServer} {env : Surroundings} {request : HttpRequest}
    (h : server.OpensFile env request) (fd : Nat) (fds : Finset Nat) :
    (server.processWith env fd request fds).1 = insert fd fds := by
  simp only [HttpServer.processWith, h.1]
  exact serveFileWith_opened h.2 fd fds

theorem processWith_not_opened {server : HttpServer} {env : Surroundings} {request : HttpRequest}
    (h : ¬ server.OpensFile env request) (fd : Nat) (fds : Finset Nat) :
    (server.processWith env fd request fds).1 = fds := by
  cases hproc : server.findProcessor request.getRequestPath with
  | some processor => simp only [HttpServer.processWith, hproc]
  | none =>
    have hfile : env.files (text (server.staticResourcePath ++ filename request.getRequestPath)) =
        .openFailed := by
      by_contra hopened
      exact h ⟨hproc, hopened⟩
    simp only [HttpServer.processWith, hproc, serveFileWith, hfile]

/-- **Descriptors of a request**: for every path, processor table and answers of the file system,
and a descriptor from `open` that was not in use, `process` leaves the set of open descriptors as it
was exactly when it opens no file. -/
theorem processWith_descriptors_iff (server : HttpServer) (env : Surroundings) (fd : Nat)
    (request : HttpRequest) (fds : Finset Nat) (hfd : fd ∉ fds) :
    (server.processWith env fd request fds).1 = fds ↔ ¬ server.OpensFile env request := by
  constructor
  · intro hsame hopen
    -- the set that came back would hold the new descriptor
    have hmem : fd ∈ insert fd fds := Finset.mem_insert_self fd fds
    rw [← processWith_opened hopen, hsame] at hmem
    exact hfd hmem
  · exact fun h => processWith_not_opened h fd fds

/-- A page of two bytes. -/
def onePage : Surroundings :=
  { files := fun path => if path = ascii "./static/index.html" then .file 2 (some (ascii "hi")) else .openFailed
    mimeType := fun _ => ([], []) }

theorem processWith_descriptors_iff_page :
    (HttpServer.init.processWith onePage 3 (requestFor (ascii "/") (by decide)) {0, 1, 2}).1 =
        {0, 1, 2} ↔
      ¬ HttpServer.init.OpensFile onePage (requestFor (ascii "/") (by decide)) :=
  processWith_descriptors_iff _ _ _ _ _ (by decide)

/-- The page is served and its descriptor stays open. -/
theorem processWith_leaks_page :
    (HttpServer.init.processWith onePage 3 (requestFor (ascii "/") (by decide)) {0, 1, 2}) =
      ({3, 0, 1, 2}, [.setBody (ascii "hi") 2]) ∧
    ({3, 0, 1, 2} : Finset Nat) ≠ {0, 1, 2} := by
  refine ⟨?_, by decide⟩
  -- the path of the request is `/`
  have hlength : (ascii "/").length < maxPathSize := by decide
  have hpath := getRequestPath_requestFor hlength (by simp [ascii])
  simp only [HttpServer.processWith, hpath]
  decide +kernel

/-! ## A server that runs on -/

/-- A request with the answers of the file system and the descriptor `open` returns then. -/
structure Visit where
  env : Surroundings
  fd : Nat
  request : HttpRequest

/-- One request. -/
def serveStep (server : HttpServer) (fds : Finset Nat) (visit : Visit) :
    Except Fault (Finset Nat) :=
  .ok (server.processWith visit.env visit.fd visit.request fds).1

open Classical in
/-- **Run**: every request that opened a file has one more descriptor open. -/
theorem card_of_serveAll (server : HttpServer) (visits : List Visit) (fds fds' : Finset Nat)
    (hfresh : Along (serveStep server) (fun fds visit => visit.fd ∉ fds) fds visits)
    (hrun : run (serveStep server) fds visits = .ok fds') :
    fds'.card = fds.card + visits.countP fun visit => server.OpensFile visit.env visit.request := by
  -- by induction on the requests: each opens one descriptor or none
  induction visits generalizing fds with
  | nil =>
    cases hrun
    rfl
  | cons visit visits ih =>
    have hrest := ih _ (hfresh.tail rfl) hrun
    by_cases hopen : server.OpensFile visit.env visit.request
    · rw [processWith_opened hopen, Finset.card_insert_of_notMem hfresh.head] at hrest
      rw [hrest, List.countP_cons_of_pos (by simpa using hopen)]
      omega
    · rw [processWith_not_opened hopen] at hrest
      rw [hrest, List.countP_cons_of_neg (by simpa using hopen)]

end Sails.Net
