import JavaUnits.Service.Payload.Writer
import JavaUnits.Service.Request
import JavaUnits.Service.Url

/-!
The service: what is answered to a request. Refusals have a status of their own; any other fault is
no answer at all, and neither is a body that cannot be encoded.
-/

namespace JavaUnits

def RefusalKind.status : RefusalKind → Nat
  | inputNotFound | noSourceFiles => 404
  | noEntryPoint => 422
  | multipleEntryPoints => 409
  | sourceLexError | sourceDecodeError | invalidPolicy => 400
  | writeFailure => 500

namespace Service

inductive Body where
  | absent
  | raw (content : Bytes)
  | value (p : Payload)

structure Call where
  method : Text
  url : Text
  body : Body

inductive Response where
  | reply (status : Nat) (body : Payload)
  | invalid (objections : List Objection)

inductive Route where
  | health
  | split
  | merge
  | openWorkspace
  | prepareWorkspace
  deriving DecidableEq

namespace Route

def path : Route → Text
  | health => "/health"
  | split => "/split"
  | merge => "/merge"
  | openWorkspace => "/workspace/open"
  | prepareWorkspace => "/workspace/prepare"

def method : Route → Text
  | health => "GET"
  | _ => "POST"

def all : List Route :=
  [health, split, merge, openWorkspace, prepareWorkspace]

def ofUrl? (url : Text) : Option Route :=
  all.find? fun route => route.path == Url.path url

end Route

def optionalText (t : Option Text) : Payload :=
  (t.map Payload.text).getD .null

def detail (p : Payload) : Payload :=
  Payload.ofMembers [("detail", p)]

def refusalDetail (r : Refusal) : Payload :=
  let candidates := r.candidates.map fun ts => ("candidates", Payload.texts ts)
  detail (Payload.ofMembers ([("kind", .text r.kind.name), ("message", .text r.message),
    ("path", optionalText r.path)] ++ candidates.toList))

/-- The reply of a route, where a refusal is a reply too. -/
def answered (action : Action Payload) : Action Response :=
  tryCatch (do return .reply 200 (← action)) fun fault =>
    match fault.refusal? with
    | some r => return .reply r.kind.status (refusalDetail r)
    | none => throw fault

def splitRoute (r : Request.SplitRequest) : Action Response := do
  match r.filename with
  | some (c :: s) =>
    if (Language.ofFileName? (some (c :: s))).isNone then
      return .reply 400 (detail (.text (Text.ofString "Unsupported file type: " ++ c :: s)))
  | _ => pure ()
  answered do
    match split r.code with
    | .error e => throw (.unit e)
    | .ok parts =>
      return Payload.ofMembers [
        ("files", .record (parts.files.map fun (name, s) => (name, .text s))),
        ("type_names", Payload.texts parts.typeNames)]

def mergeRoute (configured : Text) (r : Request.MergeRequest) : Action Response :=
  answered do
    match merge r.files (r.policy.map Policy.name) configured with
    | .error e => throw (.merge e)
    | .ok merged =>
      return Payload.ofMembers [
        ("code", .text merged.content), ("main_class_name", .text merged.mainClassName),
        ("imports", Payload.texts merged.imports),
        ("other_class_names", Payload.texts merged.otherClassNames),
        ("demoted_entry_points", Payload.texts merged.demotedEntryPoints)]

def openRoute (r : Request.WorkspaceRequest) : Action Response :=
  answered do
    let w := r.workspace
    let files ← w.openForEditing r.override
    return Payload.ofMembers [
      ("submission_path", .text w.path.toText),
      ("split_dir", if w.isSplittable then .text w.splitDirectory.toText else .null),
      ("files", Payload.texts (files.map Path.toText))]

def prepareRoute (configured : Text) (r : Request.WorkspaceRequest) : Action Response :=
  answered do
    let w := r.workspace
    let merged ← w.prepare configured (r.policy.map Policy.name)
    return Payload.ofMembers [
      ("submission_path", .text w.path.toText), ("merged", .bool merged.isSome),
      ("main_class_name", optionalText (merged.map Merged.mainClassName))]

def checked {α : Type} (c : Checked α) (route : α → Action Response) : Action Response :=
  match c with
  | .ok a => route a
  | .error objections => return .invalid objections

def run (configured : Text) (root : Path) (route : Route) (body : Option Payload) :
    Action Response :=
  let members := Request.members body
  match route with
  | .health => return .reply 200 (Payload.ofMembers [("status", .text "ok")])
  | .split => checked (members >>= Request.SplitRequest.ofMembers) splitRoute
  | .merge => checked (members >>= Request.MergeRequest.ofMembers) (mergeRoute configured)
  | .openWorkspace => checked (members >>= Request.WorkspaceRequest.ofMembers root) openRoute
  | .prepareWorkspace =>
    checked (members >>= Request.WorkspaceRequest.ofMembers root) (prepareRoute configured)

def Response.body : Response → Payload
  | reply _ body => body
  | invalid objections => detail (.list (objections.map Objection.payload))

/-- A response leaves the service only if its body can be written and encoded. -/
def encoded (response : Response) : Action Response := do
  unless response.body.isFinite do
    throw .infiniteNumber
  match Text.Utf8.encode response.body.compact with
  | .ok _ => return response
  | .error e => throw (.unencodable e)

/-- The value of a body. One that cannot be read has its response at once. -/
def readBody : Body → Except Response (Option Payload)
  | .absent | .raw [] => .ok none
  | .value p => .ok (some p)
  | .raw content =>
    match Payload.readBytes content with
    | .ok p => .ok (some p)
    | .error (.cannotGoOn position) =>
      .error (.invalid
        [⟨Request.bodyPlace ++ [Text.ofNat position], .unreadable, .record []⟩])
    | .error _ =>
      .error (.reply 400 (detail (.text "There was an error parsing the body")))

/-- Answers a call. The policy is the configured one, and `root` the directory of the workspaces. -/
def answer (configured : Text) (root : Path) (call : Call) : Action Response := do
  match Route.ofUrl? call.url with
  | none => return .reply 404 (detail (.text "Not Found"))
  | some route =>
    if call.method.toUpper != route.method then
      return .reply 405 (detail (.text "Method Not Allowed"))
    if route = .health then encoded (← run configured root route none)
    else
      match readBody call.body with
      | .error response => return response
      | .ok body => encoded (← run configured root route body)

end Service

end JavaUnits
