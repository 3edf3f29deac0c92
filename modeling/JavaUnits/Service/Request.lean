import JavaUnits.Service.Scalar
import JavaUnits.Workspace

/-!
Requests of the service, read from payloads. Numbers and flags may be written in several ways; all
objections to a payload are gathered.
-/

namespace JavaUnits

/-! ### Values of payloads -/

namespace Payload

def asText : Payload → Except ObjectionKind Text
  | text s => .ok s
  | _ => .error .notText

def asNonemptyText : Payload → Except ObjectionKind Text
  | text s =>
    if s.any CodePoint.isSurrogate then .error .notUnicode
    else if s.isEmpty then .error .tooShort
    else .ok s
  | _ => .error .notText

/-- What a text stands for. One that is looked into may hold no surrogates. -/
def looking {α : Type} (read : Text → Except ObjectionKind α) (s : Text) :
    Except ObjectionKind α :=
  if s.any CodePoint.isSurrogate then .error .notUnicode else read s

def asPolicy : Payload → Except ObjectionKind Policy
  | text s => looking (fun name => (Policy.ofName? name).elim (.error .notPolicy) .ok) s
  | _ => .error .notPolicy

def asInteger : Payload → Except ObjectionKind Int
  | int n => .ok n
  | bool b => .ok (if b then 1 else 0)
  | decimal d => Scalar.integerOfDecimal d
  | nonfinite => .error .notFinite
  | text s => looking Scalar.integerOfText s
  | _ => .error .notInteger

def asFlag : Payload → Except ObjectionKind Bool
  | bool b => .ok b
  | text s => looking Scalar.flagOfText s
  | int n => Scalar.flagOfInt n
  | decimal d =>
    match Scalar.integerOfDecimal d with
    | .ok n => Scalar.flagOfInt n
    | .error _ => .error .notFlag
  | _ => .error .notFlag

end Payload

/-! ### Members of records -/

namespace Request

abbrev Members := List (Text × Payload)

def bodyPlace : List Text :=
  [Text.ofString "body"]

def value {α : Type} (place : List Text) (read : Payload → Except ObjectionKind α)
    (p : Payload) : Checked α :=
  match read p with
  | .ok a => .ok a
  | .error kind => .error [⟨place, kind, p⟩]

def required {α : Type} (read : Payload → Except ObjectionKind α) (name : Text)
    (members : Members) : Checked α :=
  let place := bodyPlace ++ [name]
  match Payload.member? name members with
  | some p => value place read p
  | none => .error [⟨place, .missing, .record members⟩]

def withDefault {α : Type} (read : Payload → Except ObjectionKind α) (name : Text) (fallback : α)
    (members : Members) : Checked α :=
  match Payload.member? name members with
  | some p => value (bodyPlace ++ [name]) read p
  | none => .ok fallback

/-- A member that may be absent or null. -/
def optional {α : Type} (read : Payload → Except ObjectionKind α) (name : Text)
    (members : Members) : Checked (Option α) :=
  match Payload.member? name members with
  | none | some .null => .ok none
  | some p => (value (bodyPlace ++ [name]) read p).map some

/-- A key as a place shows it: with three replacement characters, one for each byte of an encoding,
for a surrogate. -/
def placeOfKey (key : Text) : Text :=
  key.flatMap fun c => if c.isSurrogate then Text.ofString "\uFFFD\uFFFD\uFFFD" else [c]

/-- A record of texts. -/
def texts (name : Text) (members : Members) : Checked Files :=
  let place := bodyPlace ++ [name]
  match Payload.member? name members with
  | none => .error [⟨place, .missing, .record members⟩]
  | some (.record entries) =>
    Checked.all (entries.map fun (key, p) =>
      (value (place ++ [placeOfKey key]) Payload.asText p).map fun s => (key, s))
  | some p => .error [⟨place, .notMapping, p⟩]

/-- The members of a body; a body that is absent or null is missing. -/
def members : Option Payload → Checked Members
  | none | some .null => .error [⟨bodyPlace, .missing, .null⟩]
  | some (.record entries) => .ok entries
  | some p => .error [⟨bodyPlace, .notRecord, p⟩]

structure SplitRequest where
  code : Text
  filename : Option Text

def SplitRequest.ofMembers (m : Members) : Checked SplitRequest :=
  (Checked.both (required Payload.asText "code" m) (optional Payload.asText "filename" m)).map
    fun (code, filename) => ⟨code, filename⟩

structure MergeRequest where
  files : Files
  policy : Option Policy

def MergeRequest.ofMembers (m : Members) : Checked MergeRequest :=
  (Checked.both (texts "files" m) (optional Payload.asPolicy "entry_point_policy" m)).map
    fun (files, policy) => ⟨files, policy⟩

structure WorkspaceRequest where
  workspace : Workspace
  override : Bool
  policy : Option Policy

def WorkspaceRequest.ofMembers (root : Path) (m : Members) : Checked WorkspaceRequest :=
  let problem :=
    Checked.both (required Payload.asInteger "problem_id" m)
      (required Payload.asNonemptyText "problem_name" m)
  let texts :=
    Checked.both (withDefault Payload.asText "extension" sourceExtension m)
      (withDefault Payload.asText "skeleton" [] m)
  let choices :=
    Checked.both (withDefault Payload.asFlag "override" false m)
      (optional Payload.asPolicy "entry_point_policy" m)
  (Checked.both problem (Checked.both texts choices)).map
    fun ((problemId, problemName), (extension, skeleton), override, policy) =>
      ⟨⟨root, problemId, problemName, extension, skeleton⟩, override, policy⟩

end Request

end JavaUnits
