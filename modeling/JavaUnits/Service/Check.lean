import JavaUnits.Service

/-!
A check by hand: a file is sent to the service to be split, and what comes back is sent to be
merged. Both answers are printed.
-/

namespace JavaUnits.Check

inductive CheckFault where
  | fault (f : Fault)
  | undecodable (e : Text.Utf8.DecodeError)
  /-- The service did not split the file. -/
  | refused (status : Nat)

def reason (status : Nat) : Text :=
  if status = 400 then "Bad Request" else "Unprocessable Entity"

def CheckFault.message (serviceUrl : Text) : CheckFault → Text
  | fault f => f.message
  | undecodable e => e.message
  | refused status =>
    Text.ofNat status ++ Text.ofString " Client Error: " ++ reason status
      ++ Text.ofString " for url: " ++ serviceUrl ++ Text.ofString "/split"

/-- What is printed of the split files. -/
def splitReport (files : List (Text × Payload)) : Text :=
  Text.ofString "=== Split files ===\n" ++ files.flatMap fun (name, content) =>
    let shown : Text := content.asText.toOption.getD []
    Text.ofString "--- " ++ name ++ Text.ofString "\n" ++ shown ++ Text.ofString "\n"

/-- What is printed of the answer to the merge. -/
def mergeReport (status : Nat) (body : Payload) : Text :=
  let member (name : Text) : Text :=
    match body with
    | .record members => (Payload.member? name members).elim [] fun p => p.asText.toOption.getD []
    | _ => []
  Text.ofString "\n=== Merge result ===\n" ++
    if status = 200 then
      member "code" ++ "\nmain class: " ++ member "main_class_name" ++ "\n"
    else body.indented ++ "\n"

/-- The text of the file; a byte order mark stays in it. -/
def textOf (content : Bytes) : Except Text.Utf8.DecodeError Text :=
  (Text.Utf8.decode content).map Text.unifyBreaks

def post (configured : Text) (root : Path) (url : Text) (body : Payload) :
    Action Service.Response :=
  Service.answer configured root ⟨"POST", url, .value body⟩

/-- Checks a file of the given name and content: what is printed, and how it ends if not well. -/
def ofContent (configured : Text) (root : Path) (fileName : Text) (content : Bytes) :
    StateM Storage (Text × Option CheckFault) := do
  match textOf content with
  | .error e => return ([], some (.undecodable e))
  | .ok code =>
    let request := Payload.ofMembers [("code", .text code), ("filename", .text fileName)]
    match ← (post configured root "/split" request).run with
    | .error f => return ([], some (.fault f))
    | .ok (.invalid _) => return ([], some (.refused 422))
    | .ok (.reply status body) =>
      match body with
      | .record [(_, .record files), _] =>
        let printed := splitReport files
        let request := Payload.ofMembers [("files", .record files)]
        match ← (post configured root "/merge" request).run with
        | .error f => return (printed, some (.fault f))
        | .ok (.invalid _) => return (printed, some (.refused 422))
        | .ok (.reply mergeStatus merged) =>
          return (printed ++ mergeReport mergeStatus merged, none)
      | _ => return ([], some (.refused status))

/-- Checks a file of the storage. -/
def run (configured : Text) (root path : Path) :
    StateM Storage (Text × Option CheckFault) := do
  match ← (Action.read path).run with
  | .error f => return ([], some (.fault f))
  | .ok content => ofContent configured root path.toText content

end JavaUnits.Check
